import LuaKernel.FileRoundTrip

/-! The files with Lua's numbers as they are: a position is a double, so a sum is rounded, and
`string.sub` takes its bounds as `int64`. Up to 2^53 this is what `Files` says. -/
namespace LuaKernel.FileNumbers

open Strings Numbers
open Files (FileSystem Descriptor File Value Regular Behind stored seek print open_ boot O_CREAT
  SEEK_SET SEEK_CUR)

def sub (s : Bytes) (i j : Int) : Bytes := strSub s (toInteger i) (toInteger j)

def sinsert (str val : Bytes) (pos : Int) : Bytes :=
  sub str 0 pos ++ val ++ sub str (double (pos + 1)) (-1)

/-- `write` on a descriptor other than standard output. -/
def write (fd : Nat) (buf : Bytes) (fs : FileSystem) : Option (Nat × FileSystem) := do
  let d ← fs.fds[fd]?
  let file ← fs.files d.top
  let files := Function.update fs.files d.top
    (some { file with buf := sinsert file.buf buf d.pos })
  return (buf.length, seek fd (double (d.pos + buf.length)) { fs with files := files })

def writeAll (fd : Nat) : List Bytes → FileSystem → Option (List Nat × FileSystem)
  | [], fs => some ([], fs)
  | buf :: rest, fs => do
    let (count, fs) ← write fd buf fs
    let (counts, fs) ← writeAll fd rest fs
    return (count :: counts, fs)

def read (fd count : Nat) (fs : FileSystem) : Option (Value × FileSystem) := do
  let d ← fs.fds[fd]?
  let file ← fs.files d.top
  if file.device then return (.num count, fs)
  let buf := sub file.buf d.pos (double (d.pos + count))
  return (.str buf, seek fd (double (d.pos + count)) (print buf fs))

def lseek (fd : Nat) (offset whence : Int) (fs : FileSystem) : Option (Int × FileSystem) :=
  fs.fds[fd]?.map fun d =>
    if whence = SEEK_SET then (double (offset + 1), seek fd (double (offset + 1)) fs)
    else if whence = SEEK_CUR then
      (double (d.pos + offset), seek fd (double (d.pos + offset)) fs)
    else (-1, fs)

theorem sub_small (s : Bytes) (i j : Int) (start : -2 ^ 63 ≤ i ∧ i < 2 ^ 63)
    (stop : -2 ^ 63 ≤ j ∧ j < 2 ^ 63) : sub s i j = strSub s i j := by
  rw [sub,toInteger_small i start.1 start.2,toInteger_small j stop.1 stop.2]

theorem double_succ (pos : Nat) (small : pos ≤ 2 ^ 53) :
    double (pos + 1) = (min pos (2 ^ 53 - 1) : Nat) + 1 := by
  rcases Nat.lt_or_eq_of_le small with below | rfl
  · rw [Nat.min_eq_left (by omega)]
    exact double_exact _ (by omega) (by omega)
  · decide +kernel

theorem sinsert_halves (str val : Bytes) (pos : Nat) (small : pos ≤ 2 ^ 53) :
    sinsert str val pos = str.take pos ++ val ++ str.drop (min pos (2 ^ 53 - 1)) := by
  rw [sinsert,double_succ pos small,sub_small _ _ _ (by omega) (by omega),
    sub_small _ _ _ (by omega) (by omega),strSub_take,strSub_drop]

theorem length_le_sinsert (str val : Bytes) (pos : Nat) (small : pos ≤ 2 ^ 53) :
    str.length ≤ (sinsert str val pos).length := by
  rw [sinsert_halves str val pos small,List.length_append,List.length_append,List.length_take,
    List.length_drop]
  omega

theorem sinsert_small (str val : Bytes) (pos : Nat) (small : pos ≤ 2 ^ 53)
    (short : str.length < 2 ^ 53) : sinsert str val pos = Files.sinsert str val pos := by
  have half : str.drop (min pos (2 ^ 53 - 1)) = str.drop pos := by
    by_cases below : pos < 2 ^ 53
    · rw [Nat.min_eq_left (by omega)]
    · rw [List.drop_eq_nil_of_le (by omega),List.drop_eq_nil_of_le (by omega)]
  rw [sinsert_halves str val pos small,half,Files.sinsert_inside]

theorem write_small (opened : fs.fds[fd]? = some d) (record : fs.files d.top = some file)
    (inside : 0 ≤ d.pos) (small : d.pos + ((buf : Bytes).length : Int) ≤ 2 ^ 53)
    (short : file.buf.length < 2 ^ 53) : write fd buf fs = Files.write fd buf fs := by
  obtain ⟨pos,at_⟩ := Int.eq_ofNat_of_zero_le inside
  have content := sinsert_small file.buf buf pos (by omega) short
  have after : double (d.pos + buf.length) = d.pos + buf.length :=
    double_exact _ (by omega) small
  simp [write,Files.write,opened,record,after,at_ ▸ content]

theorem writeAll_small (pieces : List Bytes) (opened : fs.fds[fd]? = some d)
    (record : fs.files d.top = some file) (inside : 0 ≤ d.pos)
    (small : d.pos + (pieces.flatten.length : Int) ≤ 2 ^ 53)
    (short : file.buf.length + pieces.flatten.length < 2 ^ 53) :
    writeAll fd pieces fs = Files.writeAll fd pieces fs := by
  induction pieces generalizing fs d file with
  | nil => rfl
  | cons buf rest ih =>
    rw [List.flatten_cons,List.length_append] at small short
    have one : write fd buf fs = Files.write fd buf fs :=
      write_small opened record inside (by omega) (by omega)
    have grown := Files.sinsert_length file.buf buf d.pos inside
    have others := ih (Files.stored_fds opened file buf) (Files.stored_file fd d file buf fs)
      (by dsimp only; omega) (by dsimp only; omega) (by dsimp only; omega)
    simp [writeAll,Files.writeAll,one,Files.write_stored opened record,others]

/-- From the first position a read of enough bytes gives the whole file, as long as its end is
an `int64`. -/
theorem read_first (regular : Regular fs fd ⟨path, 1⟩ ⟨content, false⟩) (n : Nat)
    (number : toDouble n = n) (enough : content.length ≤ n) (short : content.length < 2 ^ 53) :
    ∃ next, read fd n fs = some (.str (if n < 2 ^ 63 then content else []), next) := by
  have bounds : sub content 1 (double (1 + n)) = if n < 2 ^ 63 then content else [] := by
    have reached : content.length ≤ toDouble (n + 1) := by
      by_cases small : n + 1 ≤ 2 ^ 53
      · rw [toDouble_exact (n + 1) small]
        omega
      · have := le_toDouble (n + 1) 53 (by omega) (by decide)
        omega
    have cast : (1 : Int) + n = (n + 1 : Nat) := by omega
    rw [cast,double_natCast]
    split_ifs with fits
    · have below := toDouble_succ_lt n number fits
      rw [sub_small _ _ _ (by omega) (by omega),strSub_whole content _ reached]
    · have past := le_toDouble (n + 1) 63 (by omega) (by decide)
      rw [sub,toInteger_small 1 (by decide) (by decide),
        toInteger_large (toDouble (n + 1)) (by omega)]
      exact strSub_none content _ (by omega)
  exact ⟨_,by simp [read,regular.opened,regular.record,bounds]; rfl⟩

theorem written_behind (fs : FileSystem) (path : String) (absent : fs.files path = none)
    (create : flags &&& O_CREAT = O_CREAT) (pieces : List Bytes)
    (short : pieces.flatten.length < 2 ^ 53) :
    ∃ fd opened written, open_ path flags fs = (some fd, opened) ∧
      writeAll fd pieces opened = some (pieces.map List.length, written) ∧
      Behind written fd path pieces.flatten := by
  obtain ⟨fd,opened,made,start⟩ := Files.open_behind fs path absent create
  obtain ⟨written,wrote,behind⟩ := Files.writeAll_behind pieces start
  have same : writeAll fd pieces opened = Files.writeAll fd pieces opened :=
    writeAll_small pieces start.opened start.record (by simp)
      (by rw [List.length_nil]; dsimp only; omega) (by simpa using short)
  exact ⟨fd,opened,written,made,same.trans wrote,by simpa using behind⟩

theorem rewind_read (behind : Behind fs fd path content) (n : Nat) (number : toDouble n = n)
    (enough : content.length ≤ n) (short : content.length < 2 ^ 53) :
    ∃ pos rewound final, lseek fd 0 SEEK_SET fs = some (pos, rewound) ∧
      read fd n rewound = some (.str (if n < 2 ^ 63 then content else []), final) := by
  have regular : Regular (seek fd 1 fs) fd ⟨path, 1⟩ ⟨content, false⟩ :=
    ⟨by simp [seek,behind.opened],behind.record,rfl⟩
  have first : double (0 + 1) = 1 := by decide +kernel
  obtain ⟨final,result⟩ := read_first regular n number enough short
  exact ⟨1,_,final,by rw [lseek,behind.opened,first]; rfl,result⟩

theorem reopen_read (behind : Behind fs fd path content) (flags n : Nat)
    (number : toDouble n = n) (enough : content.length ≤ n) (short : content.length < 2 ^ 53) :
    ∃ fd' reopened final, open_ path flags fs = (some fd', reopened) ∧
      read fd' n reopened = some (.str (if n < 2 ^ 63 then content else []), final) := by
  have done := Files.open_performs fs path flags
  have present : fs.files path ≠ none := by simp [behind.record]
  cases performed : open_ path flags fs with
  | mk fd' reopened =>
    rw [performed] at done
    cases done with
    | missing gone => exact absurd gone present
    | created gone => exact absurd gone present
    | reopened =>
      have regular : Regular { fs with fds := fs.fds ++ [⟨path, 1⟩] } fs.fds.length
          ⟨path, 1⟩ ⟨content, false⟩ := ⟨by simp,behind.record,rfl⟩
      obtain ⟨final,result⟩ := read_first regular n number enough short
      exact ⟨_,_,final,rfl,result⟩

/-- The pieces written to a new file are its content and, up to 2^63, what is read back after a
seek to the start or through another descriptor. -/
theorem written_read_back (fs : FileSystem) (path : String) (absent : fs.files path = none)
    (flags : Nat) (create : flags &&& O_CREAT = O_CREAT) (pieces : List Bytes)
    (short : pieces.flatten.length < 2 ^ 53) :
    ∃ fd opened written, open_ path flags fs = (some fd, opened) ∧
      writeAll fd pieces opened = some (pieces.map List.length, written) ∧
      (written.files path).map (·.buf) = some pieces.flatten ∧
      ∀ n, toDouble n = n → pieces.flatten.length ≤ n →
        (∃ pos rewound final, lseek fd 0 SEEK_SET written = some (pos, rewound) ∧
          read fd n rewound =
            some (.str (if n < 2 ^ 63 then pieces.flatten else []), final)) ∧
        ∀ flags', ∃ fd' reopened final, open_ path flags' written = (some fd', reopened) ∧
          read fd' n reopened =
            some (.str (if n < 2 ^ 63 then pieces.flatten else []), final) := by
  obtain ⟨fd,opened,written,made,wrote,behind⟩ := written_behind fs path absent create pieces short
  refine ⟨fd,opened,written,made,wrote,by simp [behind.record],fun n number enough => ⟨?_,?_⟩⟩
  · exact rewind_read behind n number enough short
  · exact fun flags' => reopen_read behind flags' n number enough short

/-- Three writes to a new file, one of them empty. -/
theorem three_writes_read_back :
    ∃ fd opened written, open_ "/note" O_CREAT boot = (some fd, opened) ∧
      writeAll fd [[104, 105], [], [33]] opened = some ([2, 0, 1], written) ∧
      (written.files "/note").map (·.buf) = some [104, 105, 33] ∧
      ∃ pos rewound final, lseek fd 0 SEEK_SET written = some (pos, rewound) ∧
        read fd 3 rewound = some (.str [104, 105, 33], final) := by
  obtain ⟨fd,opened,written,made,wrote,content,again⟩ :=
    written_read_back boot "/note" (by decide) O_CREAT (by decide) [[104, 105], [], [33]]
      (by decide)
  exact ⟨fd,opened,written,made,wrote,content,(again 3 (by decide) (by decide)).1⟩

/-- A file of two bytes read back with 2^63, and with what SYS_read makes of the largest
`size_t`. -/
theorem long_read_empty : ∃ fd opened written,
    open_ "/note" O_CREAT boot = (some fd, opened) ∧
      writeAll fd [[104, 105]] opened = some ([2], written) ∧
      ∀ n ∈ [2 ^ 63, toDouble (2 ^ 64 - 1)], ∃ pos rewound final,
        lseek fd 0 SEEK_SET written = some (pos, rewound) ∧
          read fd n rewound = some (.str [], final) := by
  obtain ⟨fd,opened,written,made,wrote,behind⟩ :=
    written_behind boot "/note" (by decide) (Nat.and_self O_CREAT) [[104, 105]] (by decide)
  refine ⟨fd,opened,written,made,wrote,fun n member => ?_⟩
  have large : toDouble n = n ∧ 2 ^ 63 ≤ n := by
    revert n
    decide +kernel
  have result := rewind_read behind n large.1 (by simp; omega) (by decide)
  rwa [if_neg (Nat.not_lt.mpr large.2)] at result

end LuaKernel.FileNumbers
