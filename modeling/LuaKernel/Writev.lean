import LuaKernel.FileNumbers
import LuaKernel.LuaAlloc
import LuaKernel.Syscalls
import LuaKernel.Terminal

/-! SYS_writev against one SYS_write of all its buffers. Each buffer goes through `write` of
musl and SYS_write again, from the terminal or the position the one before it left. -/
namespace LuaKernel.Writev

open Strings Syscalls
open Terminal (Line)

structure Kernel where
  calls : Syscalls.State
  lines : List Line

/-- `l_alloc` gives nothing for a longer string that the memory of 4 GiB can hold. -/
theorem longer_refused (pool : Sqlite.Pool Links) (h : Sqlite.Heap Links) (osize : Nat)
    (long : 0x40000000 < stringSize len) (mapped : stringSize len < 2 ^ 32) :
    LuaAlloc.lAlloc pool 0 osize (stringSize len) h = (0, h) := by
  have some_ : stringSize len ≠ 0 := by simp [stringSize]
  have refused : Sqlite.sqlite3Realloc pool 0
      (if stringSize len % 2 ^ 32 < 2 ^ 31 then stringSize len % 2 ^ 32 else 0) h = (0, h) := by
    rw [Sqlite.sqlite3Realloc,if_pos rfl]
    apply Sqlite.sqlite3Malloc_refused
    split <;> omega
  rw [LuaAlloc.lAlloc,if_neg some_,LuaAlloc.realloc_residue,refused]

/-- What `write` is given for the number: 1 itself, or what the registry holds. -/
def target (s : Syscalls.State) (fd : Int) : Object :=
  if fd ≠ 1 then s.registry fd else .number fd

section Display

variable (width height : Nat)

/-- `write`; what equals `stdout` goes to the terminal. -/
def write (buf : Bytes) (k : Kernel) : Object → Option (Nat × Kernel)
  | .number n => if n = 1 then do
      let lines ← Terminal.write width height buf k.lines
      return (buf.length,
        ⟨{ k.calls with fs := { k.calls.fs with stdout := k.calls.fs.stdout ++ buf } }, lines⟩)
    else none
  | .descriptor i => do
    let (count, fs) ← FileNumbers.write i buf k.calls.fs
    let _ ← (Files.contentOf i fs).bind pushlstring
    return (count, ⟨{ k.calls with fs := fs }, k.lines⟩)
  | _ => none

def sysWrite (fd : Int) (buf : Bytes) (k : Kernel) : Option (Int × Kernel) := do
  let buf ← pushlstring buf
  let (len, k) ← write width height buf k (target k.calls fd)
  return (toInt len, k)

/-- `__syscall_ret` of musl: the last 4095 values are errors. -/
def syscallRet (r : Int) : Int := if -4096 < r ∧ r < 0 then -1 else r

def writeEach (fd : Int) : List Bytes → Int → Kernel → Option (Int × Kernel)
  | [], written, k => some (written, k)
  | buf :: rest, written, k => do
    let (len, k) ← sysWrite width height fd buf k
    writeEach fd rest (written + syscallRet len) k

def sysWritev (fd : Int) (iov : List Bytes) (k : Kernel) : Option (Int × Kernel) :=
  writeEach width height fd iov 0 k

/-- Standard output with a line on the terminal, or a descriptor of a regular file at a
position from 0 on, with `len` bytes to go up to 2^53. -/
inductive Writable (k : Kernel) (fd : Int) (len : Nat) : Prop
  | stdout (one : fd = 1) (start : k.lines ≠ [])
  | file (other : fd ≠ 1) (slot : k.calls.registry fd = .descriptor i)
      (regular : Files.Regular k.calls.fs i d file) (inside : 0 ≤ d.pos)
      (small : d.pos + len ≤ 2 ^ 53)

/-- The strings that a write of `len` bytes needs can be made. -/
structure Fits (k : Kernel) (fd : Int) (len : Nat) : Prop where
  buffer : stringSize len ≤ 0x40000000
  content : fd ≠ 1 → k.calls.registry fd = .descriptor i →
    Files.contentOf i k.calls.fs = some old → stringSize (old.length + len) ≤ 0x40000000

inductive Wrote (k : Kernel) (fd : Int) (buf : Bytes) : Kernel → Prop
  | stdout (one : fd = 1) (shown : Terminal.write width height buf k.lines = some lines) :
      Wrote k fd buf
        ⟨{ k.calls with fs := { k.calls.fs with stdout := k.calls.fs.stdout ++ buf } }, lines⟩
  | file (other : fd ≠ 1) (slot : k.calls.registry fd = .descriptor i)
      (regular : Files.Regular k.calls.fs i d file) (inside : 0 ≤ d.pos)
      (small : d.pos + (buf.length : Int) ≤ 2 ^ 53)
      (room : stringSize (file.buf.length + buf.length) ≤ 0x40000000) :
      Wrote k fd buf
        ⟨{ k.calls with fs := Files.stored i d file buf k.calls.fs }, k.lines⟩

variable {width height}

theorem Fits.fewer (fits : Fits k fd len) (bound : count ≤ len) : Fits k fd count := by
  constructor
  · have := fits.buffer
    unfold stringSize at *
    omega
  · intro i old other slot found
    have := fits.content other slot found
    unfold stringSize at *
    omega

theorem contentOf_regular (regular : Files.Regular fs i d file) :
    Files.contentOf i fs = some file.buf := by
  simp [Files.contentOf,regular.opened,regular.record]

theorem Writable.nil (writable : Writable k fd 0) (fits : Fits k fd 0) :
    Wrote width height k fd [] k := by
  cases writable with
  | stdout one start =>
    have same : Wrote width height k fd [] _ := .stdout one rfl
    rwa [List.append_nil] at same
  | file other slot regular inside small =>
    have room := fits.content other slot (contentOf_regular regular)
    have same : Wrote width height k fd [] _ := .file other slot regular inside small room
    rwa [Files.stored_nil regular.opened regular.record inside] at same

theorem Writable.wrote (width height : Nat) (writable : Writable k fd (a.length + more))
    (fits : Fits k fd (a.length + more)) :
    ∃ next, Wrote width height k fd a next ∧ Writable next fd more ∧ Fits next fd more := by
  cases writable with
  | stdout one start =>
    obtain ⟨lines,shown,some_⟩ := Terminal.write_nonempty width height a start
    refine ⟨_,.stdout one shown,.stdout one some_,(fits.fewer (by omega)).buffer,?_⟩
    exact fun other => absurd one other
  | @file i d file other slot regular inside small =>
    have room := fits.content other slot (contentOf_regular regular)
    have after := regular.stored a
    have grown := Files.sinsert_length file.buf a d.pos inside
    refine ⟨_,.file other slot regular inside (by omega) ?_,
      .file other slot after (by dsimp only; omega) (by dsimp only; omega),
      (fits.fewer (by omega)).buffer,?_⟩
    · unfold stringSize at *
      omega
    · intro i' old _ slot' found
      obtain rfl : i = i' := by simpa [slot] using slot'
      obtain rfl := Option.some.inj ((contentOf_regular after).symm.trans found)
      unfold stringSize at *
      dsimp only
      omega

theorem toInt_small (small : n < 2 ^ 31) : toInt (n : Nat) = n := by
  rw [toInt,if_pos (by omega)]

theorem Wrote.append (first : Wrote width height k fd a middle)
    (second : Wrote width height middle fd b next) : Wrote width height k fd (a ++ b) next := by
  cases first with
  | stdout one shown =>
    cases second with
    | file other => exact absurd one other
    | stdout _ more =>
      have both : Terminal.write width height (a ++ b) k.lines = _ := List.foldlM_append
      rw [Terminal.write] at shown
      rw [shown] at both
      have joined : Wrote width height k fd (a ++ b) _ := .stdout one (both.trans more)
      rwa [← List.append_assoc] at joined
  | @file i d file other slot regular inside small room =>
    cases second with
    | stdout one => exact absurd one other
    | @file i' d' file' _ slot' regular' inside' small' room' =>
      obtain rfl : i = i' := by simpa [slot] using slot'
      have after := regular.stored a
      have grown := Files.sinsert_length file.buf a d.pos inside
      obtain rfl := Option.some.inj (after.opened.symm.trans regular'.opened)
      obtain rfl := Option.some.inj (after.record.symm.trans regular'.record)
      rw [Files.stored_stored i d file a b k.calls.fs inside]
      refine .file other slot regular inside ?_ ?_
      · rw [List.length_append]
        dsimp only at small'
        omega
      · rw [List.length_append]
        unfold stringSize at *
        dsimp only at room'
        omega

theorem Wrote.made (wrote : Wrote width height k fd buf next) :
    write width height buf k (target k.calls fd) = some (buf.length, next) ∧
      Syscalls.write buf k.calls (target k.calls fd) = some (buf.length, next.calls) := by
  cases wrote with
  | stdout one shown => simp [write,Syscalls.write,target,one,shown]
  | @file i d file other slot regular inside small room =>
    have short : file.buf.length < 2 ^ 53 := by
      unfold stringSize at room
      omega
    have grown := Files.sinsert_length file.buf buf d.pos inside
    have content : (Files.contentOf i (Files.stored i d file buf k.calls.fs)).bind pushlstring =
        some (Files.sinsert file.buf buf d.pos) := by
      rw [contentOf_regular (regular.stored buf),Option.bind_some,pushlstring,if_pos]
      rwa [grown]
    have wrote := Files.write_stored regular.opened regular.record buf
    have rounded := FileNumbers.write_small regular.opened regular.record inside small short
    simp [write,Syscalls.write,target,other,slot,rounded,wrote,content]

/-- A string that can be made is written, and its length returned, as `Syscalls` has it. -/
theorem Wrote.result (wrote : Wrote width height k fd buf next)
    (fits : stringSize buf.length ≤ 0x40000000) :
    sysWrite width height fd buf k = some ((buf.length : Int), next) ∧
      handle k.calls (.write fd buf) = some ((buf.length : Int), next.calls) := by
  have small : toInt (buf.length : Nat) = buf.length := by
    apply toInt_small
    rw [stringSize] at fits
    omega
  obtain ⟨here,there⟩ := wrote.made
  have made : pushlstring buf = some buf := if_pos fits
  constructor
  · simp [sysWrite,made,here,small]
  · rw [target] at there
    simp only [handle,made,Option.bind_eq_bind,Option.bind_some,there,small,Option.pure_def]

theorem Writable.fits (writable : Writable k fd buf.length)
    (returned : sysWrite width height fd buf k = some result) : Fits k fd buf.length := by
  have buffer : stringSize buf.length ≤ 0x40000000 := by
    by_contra long
    rw [sysWrite,pushlstring,if_neg long] at returned
    contradiction
  refine ⟨buffer,fun {i' old} other slot' found => ?_⟩
  cases writable with
  | stdout one => exact absurd one other
  | @file i d file _ slot regular inside small =>
    obtain rfl : i = i' := by simpa [slot] using slot'
    obtain rfl := Option.some.inj ((contentOf_regular regular).symm.trans found)
    obtain ⟨pos,at_⟩ := Int.eq_ofNat_of_zero_le inside
    have made : stringSize (FileNumbers.sinsert file.buf buf d.pos).length ≤ 0x40000000 := by
      by_contra long
      simp [sysWrite,pushlstring,buffer,target,other,slot,write,FileNumbers.write,regular.opened,
        regular.record,Files.contentOf,Files.seek,long] at returned
    have longer := FileNumbers.length_le_sinsert file.buf buf pos (by omega)
    rw [at_] at made
    have short : file.buf.length < 2 ^ 53 := by
      unfold stringSize at made
      omega
    rw [FileNumbers.sinsert_small file.buf buf pos (by omega) short,
      Files.sinsert_length _ _ _ (Int.natCast_nonneg pos)] at made
    exact made

theorem writeEach_wrote (width height : Nat) (iov : List Bytes)
    (writable : Writable k fd iov.flatten.length) (written : Int)
    (fits : Fits k fd iov.flatten.length) :
    ∃ next, Wrote width height k fd iov.flatten next ∧
      writeEach width height fd iov written k = some (written + iov.flatten.length, next) := by
  induction iov generalizing k written with
  | nil => exact ⟨k,writable.nil fits,by simp [writeEach]⟩
  | cons buf rest ih =>
    rw [List.flatten_cons,List.length_append] at fits writable
    obtain ⟨middle,first,writable',fits'⟩ := writable.wrote width height fits
    have one := (first.result (fits.fewer (by omega)).buffer).1
    have ret : syscallRet (buf.length : Int) = buf.length := if_neg (by omega)
    obtain ⟨next,others,result⟩ := ih writable' (written + buf.length) fits'
    refine ⟨next,first.append others,?_⟩
    have step : writeEach width height fd (buf :: rest) written k =
        writeEach width height fd rest (written + syscallRet buf.length) middle := by
      rw [writeEach,one]
      rfl
    rw [step,ret,result,List.flatten_cons,List.length_append,Int.natCast_add,Int.add_assoc]

end Display

def sample : Kernel where
  calls :=
    { fs := ⟨fun _ => some ⟨[97, 98, 99], false⟩, [⟨"/a", 9⟩], []⟩
      registry slot := if slot = 3 then .descriptor 0 else .nil
      tables _ := none
      held := []
      opened := [3] }
  lines := [[]]

def sought (offset : Int) : Option Kernel :=
  (FileNumbers.lseek 0 (Numbers.double offset) Files.SEEK_SET sample.calls.fs).map fun (_, fs) =>
    { sample with calls := { sample.calls with fs := fs } }

def outcome (call : Kernel → Option (Int × Kernel)) (offset : Int) :
    Option (Int × Option Bytes × List Int) :=
  ((sought offset).bind call).map fun (len, k) =>
    (len, Files.contentOf 0 k.calls.fs, k.calls.fs.fds.map (·.pos))

end LuaKernel.Writev
