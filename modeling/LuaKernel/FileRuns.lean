import LuaKernel.Files
import LuaKernel.Runs

/-! Runs of `open`, `read`, `write` and `lseek` on descriptors, in any order and on any paths. -/
namespace LuaKernel.Files

open Strings Runs

inductive Op
  | open_ (pathname : String) (flags : Nat)
  | read (fd count : Nat)
  | write (fd : Nat) (buf : Bytes)
  | lseek (fd : Nat) (offset whence : Int)

inductive Answer
  | opened (fd : Option Nat)
  | data (value : Value)
  | written (count : Nat)
  | moved (pos : Int)

/-- `none` is the error of an operation on what is no descriptor. -/
def perform (fs : FileSystem) : Op → Option (Answer × FileSystem)
  | .open_ pathname flags => some (.opened (open_ pathname flags fs).1, (open_ pathname flags fs).2)
  | .read fd count => (read fd count fs).map fun result => (.data result.1, result.2)
  | .write fd buf => (write fd buf fs).map fun result => (.written result.1, result.2)
  | .lseek fd offset whence =>
    (lseek fd offset whence fs).map fun result => (.moved result.1, result.2)

def after (fs : FileSystem) (op : Op) : Option FileSystem := (perform fs op).map (·.2)

def boot : FileSystem where
  files path := if path = "/dev/null" ∨ path = "/dev/urandom" then some ⟨[], true⟩ else none
  fds := []
  stdout := []

/-- The comparison that should test for O_APPEND never succeeds. -/
theorem never_append (flags : Nat) : flags &&& O_APPEND ≠ O_CREAT := by
  intro same
  have bit := congrArg (Nat.testBit · 6) same
  have clear : O_APPEND.testBit 6 = false := by decide
  have set : O_CREAT.testBit 6 = true := by decide
  simp only [Nat.testBit_and,clear,set,Bool.and_false,Bool.false_eq_true] at bit

inductive Performs (fs : FileSystem) : Op → Answer → FileSystem → Prop
  | missing (absent : fs.files path = none) (noCreate : flags &&& O_CREAT ≠ O_CREAT) :
      Performs fs (.open_ path flags) (.opened none) fs
  | created (absent : fs.files path = none) (create : flags &&& O_CREAT = O_CREAT) :
      Performs fs (.open_ path flags) (.opened (some fs.fds.length))
        { print (text "creat") fs with
          files := Function.update fs.files path (some ⟨[], false⟩)
          fds := fs.fds ++ [⟨path, 1⟩] }
  | reopened (present : fs.files path = some file) :
      Performs fs (.open_ path flags) (.opened (some fs.fds.length))
        { fs with fds := fs.fds ++ [⟨path, 1⟩] }
  | device (opened : fs.fds[fd]? = some d) (record : fs.files d.top = some file)
      (special : file.device = true) : Performs fs (.read fd count) (.data (.num count)) fs
  | regular (opened : fs.fds[fd]? = some d) (record : fs.files d.top = some file)
      (plain : file.device = false) :
      Performs fs (.read fd count) (.data (.str (strSub file.buf d.pos (d.pos + count))))
        (seek fd (d.pos + count) (print (strSub file.buf d.pos (d.pos + count)) fs))
  | write (opened : fs.fds[fd]? = some d) (record : fs.files d.top = some file) :
      Performs fs (.write fd buf) (.written buf.length) (seek fd (d.pos + buf.length)
        { fs with
          files := Function.update fs.files d.top
            (some { file with buf := sinsert file.buf buf d.pos }) })
  | set (opened : fs.fds[fd]? = some d) :
      Performs fs (.lseek fd offset SEEK_SET) (.moved (offset + 1)) (seek fd (offset + 1) fs)
  | current (opened : fs.fds[fd]? = some d) :
      Performs fs (.lseek fd offset SEEK_CUR) (.moved (d.pos + offset))
        (seek fd (d.pos + offset) fs)
  | unsupported (opened : fs.fds[fd]? = some d) (notSet : whence ≠ SEEK_SET)
      (notCurrent : whence ≠ SEEK_CUR) :
      Performs fs (.lseek fd offset whence) (.moved (-1)) fs

theorem open_performs (fs : FileSystem) (path : String) (flags : Nat) :
    Performs fs (.open_ path flags) (.opened (open_ path flags fs).1) (open_ path flags fs).2 := by
  cases found : fs.files path with
  | none =>
    by_cases create : flags &&& O_CREAT = O_CREAT
    · have made : open_ path flags fs = (some fs.fds.length,
          { print (text "creat") fs with
            files := Function.update fs.files path (some ⟨[], false⟩)
            fds := fs.fds ++ [⟨path, 1⟩] }) := by
        simp [open_,found,create,never_append,print]
      rw [made]
      exact .created found create
    · have refused : open_ path flags fs = (none, fs) := by simp [open_,found,create]
      rw [refused]
      exact .missing found create
  | some file =>
    have reused : open_ path flags fs =
        (some fs.fds.length, { fs with fds := fs.fds ++ [⟨path, 1⟩] }) := by
      simp [open_,found,never_append]
    rw [reused]
    exact .reopened found

theorem perform_performs (fs next : FileSystem) (answer : Answer)
    (done : perform fs op = some (answer, next)) : Performs fs op answer next := by
  cases op with
  | open_ path flags =>
    obtain ⟨rfl,rfl⟩ := by simpa [perform] using done
    exact open_performs fs path flags
  | read fd count =>
    obtain ⟨⟨value,_⟩,result,same⟩ := Option.map_eq_some_iff.mp done
    obtain ⟨rfl,rfl⟩ := by simpa using same
    simp only [read,Option.bind_eq_bind,Option.bind_eq_some_iff] at result
    obtain ⟨d,opened,file,record,found⟩ := result
    cases special : file.device with
    | true =>
      obtain ⟨rfl,rfl⟩ := by simpa [special] using found
      exact .device opened record special
    | false =>
      obtain ⟨rfl,rfl⟩ := by simpa [special] using found
      exact .regular opened record special
  | write fd buf =>
    obtain ⟨⟨count,_⟩,result,same⟩ := Option.map_eq_some_iff.mp done
    obtain ⟨rfl,rfl⟩ := by simpa using same
    simp only [write,Option.bind_eq_bind,Option.bind_eq_some_iff] at result
    obtain ⟨d,opened,file,record,found⟩ := result
    obtain ⟨rfl,rfl⟩ := by simpa using found
    exact .write opened record
  | lseek fd offset whence =>
    obtain ⟨⟨pos,_⟩,result,same⟩ := Option.map_eq_some_iff.mp done
    obtain ⟨rfl,rfl⟩ := by simpa using same
    obtain ⟨d,opened,found⟩ := Option.map_eq_some_iff.mp result
    by_cases first : whence = SEEK_SET
    · subst first
      obtain ⟨rfl,rfl⟩ := by simpa using found
      exact .set opened
    · by_cases second : whence = SEEK_CUR
      · subst second
        obtain ⟨rfl,rfl⟩ := by simpa [SEEK_SET,SEEK_CUR] using found
        exact .current opened
      · obtain ⟨rfl,rfl⟩ := by simpa [first,second] using found
        exact .unsupported opened first second

theorem after_perform (fs next : FileSystem) (moved : after fs op = some next) :
    ∃ answer, perform fs op = some (answer, next) := by
  obtain ⟨⟨answer,_⟩,done,rfl⟩ := Option.map_eq_some_iff.mp moved
  exact ⟨answer,done⟩

theorem seek_self (opened : fs.fds[fd]? = some d) : seek fd d.pos fs = fs := by
  have still : fs.fds.modify fd (fun old => { old with pos := d.pos }) = fs.fds := by
    apply List.ext_getElem?
    intro i
    rw [List.getElem?_modify]
    by_cases here : fd = i
    · subst here
      simp [opened]
    · simp [here]
  rw [seek,still]

/-- What a move of one descriptor leaves in the list. -/
theorem seek_mem (member : d ∈ (seek fd pos fs).fds) :
    ∃ old ∈ fs.fds, d.top = old.top ∧ (d.pos = old.pos ∨ d.pos = pos) := by
  obtain ⟨i,here⟩ := List.mem_iff_getElem?.mp member
  rw [seek,List.getElem?_modify] at here
  obtain ⟨old,entry,same⟩ := Option.map_eq_some_iff.mp here
  refine ⟨old,List.mem_of_getElem? entry,?_⟩
  split at same
  · exact ⟨by rw [← same],Or.inr (by rw [← same])⟩
  · exact ⟨by rw [← same],Or.inl (by rw [← same])⟩

def Present (fs : FileSystem) : Prop := ∀ d ∈ fs.fds, fs.files d.top ≠ none

theorem Present.seek (present : Present fs) : Present (seek fd pos fs) := by
  intro d member
  obtain ⟨old,before,top,-⟩ := seek_mem member
  exact top ▸ present old before

/-- A record stored under a path leaves every file there, and makes that one be. -/
theorem Present.store (present : Present fs) (file : File) :
    Present { fs with files := Function.update fs.files path (some file) } := by
  intro d member
  by_cases here : d.top = path
  · simp [here]
  · simpa [here] using present d member

theorem Present.open_ (present : Present fs) (found : fs.files path ≠ none) :
    Present { fs with fds := fs.fds ++ [⟨path, 1⟩] } := by
  intro d member
  rcases List.mem_append.mp member with old | new
  · exact present d old
  · rw [List.mem_singleton.mp new]
    exact found

theorem Performs.present (done : Performs fs op answer next) (present : Present fs) :
    Present next := by
  cases done with
  | missing | device | unsupported => exact present
  | created => exact Present.open_ (Present.store present ⟨[], false⟩) (by simp)
  | reopened found => exact present.open_ (by simp [found])
  | regular | set | current => exact Present.seek present
  | write => exact Present.seek (present.store _)

theorem Performs.length (done : Performs fs op answer next) :
    fs.fds.length ≤ next.fds.length := by
  cases done <;> simp [Files.seek,print]

def stored (fd : Nat) (d : Descriptor) (file : File) (buf : Bytes) (fs : FileSystem) :
    FileSystem :=
  seek fd (d.pos + buf.length)
    { fs with
      files := Function.update fs.files d.top
        (some { file with buf := sinsert file.buf buf d.pos }) }

theorem write_stored (opened : fs.fds[fd]? = some d) (record : fs.files d.top = some file)
    (buf : Bytes) : write fd buf fs = some (buf.length, stored fd d file buf fs) := by
  simp [write,stored,opened,record]

theorem stored_fds (opened : fs.fds[fd]? = some d) (file : File) (buf : Bytes) :
    (stored fd d file buf fs).fds[fd]? = some { d with pos := d.pos + buf.length } := by
  simp [stored,seek,opened]

theorem stored_file (fd : Nat) (d : Descriptor) (file : File) (buf : Bytes) (fs : FileSystem) :
    (stored fd d file buf fs).files d.top =
      some { file with buf := sinsert file.buf buf d.pos } := by
  simp [stored,seek]

/-- The file is still one, and the position behind what was written. -/
theorem Regular.stored (regular : Regular fs fd d file) (buf : Bytes) :
    Regular (stored fd d file buf fs) fd { d with pos := d.pos + buf.length }
      { file with buf := sinsert file.buf buf d.pos } :=
  ⟨stored_fds regular.opened file buf,stored_file fd d file buf fs,regular.plain⟩

end LuaKernel.Files
