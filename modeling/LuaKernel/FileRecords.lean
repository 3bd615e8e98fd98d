import LuaKernel.FileRuns

/-! The file system as the Lua tables it is made of. A record and a descriptor are tables, each
reached by reference: `fs` holds references to records, and so does the field `top` of a
descriptor. What a file operation does to the two tables it reaches is a function of them.
The list `fd` of a record is left out, for nothing reads it. -/
namespace LuaKernel.Records

open Strings Files

structure Descriptor where
  top : Nat
  pos : Int

structure Heap where
  fs : String → Option Nat
  records : Nat → Option File
  fds : Nat → Option Descriptor
  stdout : Bytes

/-- What an operation returns, the position and the record after it, and what it prints. -/
structure Outcome where
  answer : Answer
  pos : Int
  file : File
  printed : Bytes

def lseek (offset whence : Int) (pos : Int) (file : File) : Outcome :=
  if whence = SEEK_SET then ⟨.moved (offset + 1), offset + 1, file, []⟩
  else if whence = SEEK_CUR then ⟨.moved (pos + offset), pos + offset, file, []⟩
  else ⟨.moved (-1), pos, file, []⟩

def read (count : Nat) (pos : Int) (file : File) : Outcome :=
  if file.device then ⟨.data (.num count), pos, file, []⟩ else
  let buf := strSub file.buf pos (pos + count)
  ⟨.data (.str buf), pos + count, file, buf ++ [10]⟩

def write (buf : Bytes) (pos : Int) (file : File) : Outcome :=
  ⟨.written buf.length, pos + buf.length, { file with buf := sinsert file.buf buf pos }, []⟩

inductive Access
  | read (count : Nat)
  | write (buf : Bytes)
  | lseek (offset whence : Int)

def access : Access → Int → File → Outcome
  | .read count => read count
  | .write buf => write buf
  | .lseek offset whence => lseek offset whence

/-- An `open` comes with the addresses that the tables it makes would get. -/
inductive Op
  | open_ (pathname : String) (flags record fd : Nat)
  | on (fd : Nat) (what : Access)

/-- `open`; `none` is the returned -1. -/
def open_ (pathname : String) (flags record fd : Nat) (h : Heap) : Option Nat × Heap :=
  let found := match h.fs pathname with
    | some top => some (top, h)
    | none =>
      if flags &&& O_CREAT = O_CREAT then
        some (record,
          { h with
            stdout := h.stdout ++ text "creat" ++ [10]
            records := Function.update h.records record (some ⟨[], false⟩)
            fs := Function.update h.fs pathname (some record) })
      else none
  match found with
  | none => (none, h)
  | some (top, h) =>
    let size : Int := ((h.records top).map (·.buf.length)).getD 0
    let append := flags &&& O_APPEND = O_CREAT
    (some fd,
      { h with
        stdout := if append then h.stdout ++ text "append" ++ [10] else h.stdout
        fds := Function.update h.fds fd (some ⟨top, if append then size else 1⟩) })

def perform (h : Heap) : Op → Option (Answer × Heap)
  | .open_ pathname flags record fd =>
    if h.records record = none ∧ h.fds fd = none then
      some (.opened (open_ pathname flags record fd h).1, (open_ pathname flags record fd h).2)
    else none
  | .on fd what => do
    let d ← h.fds fd
    let file ← h.records d.top
    let outcome := access what d.pos file
    return (outcome.answer,
      { h with
        stdout := h.stdout ++ outcome.printed
        records := Function.update h.records d.top (some outcome.file)
        fds := Function.update h.fds fd (some ⟨d.top, outcome.pos⟩) })

def boot : Heap where
  fs path := if path = "/dev/null" then some 0 else if path = "/dev/urandom" then some 1 else none
  records record := if record = 0 ∨ record = 1 then some ⟨[], true⟩ else none
  fds _ := none
  stdout := []

inductive Performs (h : Heap) : Op → Answer → Heap → Prop
  | missing (absent : h.fs path = none) (noCreate : flags &&& O_CREAT ≠ O_CREAT)
      (newRecord : h.records record = none) (newFd : h.fds fd = none) :
      Performs h (.open_ path flags record fd) (.opened none) h
  | created (absent : h.fs path = none) (create : flags &&& O_CREAT = O_CREAT)
      (newRecord : h.records record = none) (newFd : h.fds fd = none) :
      Performs h (.open_ path flags record fd) (.opened (some fd))
        { stdout := h.stdout ++ text "creat" ++ [10]
          records := Function.update h.records record (some ⟨[], false⟩)
          fs := Function.update h.fs path (some record)
          fds := Function.update h.fds fd (some ⟨record, 1⟩) }
  | reopened (present : h.fs path = some top) (newRecord : h.records record = none)
      (newFd : h.fds fd = none) :
      Performs h (.open_ path flags record fd) (.opened (some fd))
        { h with fds := Function.update h.fds fd (some ⟨top, 1⟩) }
  | on (opened : h.fds fd = some d) (found : h.records d.top = some file) :
      Performs h (.on fd what) (access what d.pos file).answer
        { h with
          stdout := h.stdout ++ (access what d.pos file).printed
          records := Function.update h.records d.top (some (access what d.pos file).file)
          fds := Function.update h.fds fd (some ⟨d.top, (access what d.pos file).pos⟩) }

theorem performs_iff (h next : Heap) (op : Op) (answer : Answer) :
    perform h op = some (answer, next) ↔ Performs h op answer next := by
  constructor
  · intro done
    cases op with
    | open_ path flags record fd =>
      simp only [perform] at done
      split at done
      · rename_i new
        cases found : h.fs path with
        | some top =>
          obtain ⟨rfl,rfl⟩ := by simpa [open_,found,never_append] using done
          exact .reopened found new.1 new.2
        | none =>
          by_cases create : flags &&& O_CREAT = O_CREAT
          · obtain ⟨rfl,rfl⟩ := by
              simpa [open_,found,create,never_append,-List.append_assoc] using done
            exact .created found create new.1 new.2
          · obtain ⟨rfl,rfl⟩ := by simpa [open_,found,create] using done
            exact .missing found create new.1 new.2
      · contradiction
    | on fd what =>
      simp only [perform,Option.bind_eq_bind,Option.bind_eq_some_iff] at done
      obtain ⟨d,opened,file,found,same⟩ := done
      obtain ⟨rfl,rfl⟩ := by simpa using same
      exact .on opened found
  · intro done
    cases done with
    | missing absent noCreate newRecord newFd =>
      simp [perform,open_,absent,noCreate,newRecord,newFd]
    | created absent create newRecord newFd =>
      simp [perform,open_,absent,create,newRecord,newFd,never_append]
    | reopened present newRecord newFd =>
      simp [perform,open_,present,newRecord,newFd,never_append]
    | on opened found => simp [perform,opened,found]

/-- Every descriptor refers to the record of a path, every path has a record, and no two paths
share one. -/
structure Separate (h : Heap) : Prop where
  owned : h.fds fd = some d → ∃ path, h.fs path = some d.top
  present : h.fs path = some record → h.records record ≠ none
  apart : h.fs path = some record → h.fs other = some record → path = other

theorem boot_separate : Separate boot where
  owned := nofun
  present := by
    intro path record found
    simp only [boot] at found ⊢
    grind
  apart := by
    intro path record other found found'
    simp only [boot] at found found'
    grind

/-- The address of a new record is that of no path. -/
theorem Separate.new (separate : Separate h) (unused : h.records record = none) :
    h.fs path ≠ some record := fun found => separate.present found unused

theorem Separate.print (separate : Separate h) (printed : Bytes) :
    Separate { h with stdout := h.stdout ++ printed } :=
  ⟨separate.owned,separate.present,separate.apart⟩

theorem Separate.open_ (separate : Separate h) (found : h.fs path = some top) :
    Separate { h with fds := Function.update h.fds fd (some ⟨top, pos⟩) } where
  owned := by
    intro other d opened
    by_cases same : other = fd
    · subst same
      obtain rfl := by simpa using opened
      exact ⟨path,found⟩
    · exact separate.owned (by simpa [same] using opened)
  present := separate.present
  apart := separate.apart

theorem Separate.create (separate : Separate h) (absent : h.fs path = none)
    (unused : h.records record = none) :
    Separate { h with
      records := Function.update h.records record (some file)
      fs := Function.update h.fs path (some record) } where
  owned := by
    intro fd d opened
    obtain ⟨other,found⟩ := separate.owned opened
    refine ⟨other,?_⟩
    have different : other ≠ path := by
      rintro rfl
      simp [absent] at found
    simpa [different] using found
  present := by
    intro other top found
    by_cases same : top = record
    · simp [same]
    · by_cases here : other = path
      · simp [here] at found
        exact absurd found.symm same
      · simpa [same] using separate.present (by simpa [here] using found)
  apart := by
    intro first top second found found'
    by_cases here : first = path <;> by_cases there : second = path
    · rw [here,there]
    · obtain rfl : record = top := by simpa [here] using found
      exact absurd (by simpa [there] using found') (separate.new unused)
    · obtain rfl : record = top := by simpa [there] using found'
      exact absurd (by simpa [here] using found) (separate.new unused)
    · exact separate.apart (by simpa [here] using found) (by simpa [there] using found')

theorem Separate.update (separate : Separate h) (opened : h.fds fd = some d) :
    Separate { h with
      records := Function.update h.records d.top (some file)
      fds := Function.update h.fds fd (some ⟨d.top, pos⟩) } where
  owned := by
    intro other e opened'
    by_cases same : other = fd
    · subst same
      obtain rfl := by simpa using opened'
      obtain ⟨path,found⟩ := separate.owned opened
      exact ⟨path,found⟩
    · exact separate.owned (by simpa [same] using opened')
  present := by
    intro path record found
    by_cases same : record = d.top
    · simp [same]
    · simpa [same] using separate.present found
  apart := separate.apart

theorem Separate.step (separate : Separate h) (done : Performs h op answer next) :
    Separate next := by
  cases done with
  | missing => exact separate
  | created absent _ newRecord _ =>
    rw [List.append_assoc]
    exact Separate.open_ (Separate.create (separate.print _) absent newRecord)
      (Function.update_self _ _ _)
  | reopened present => exact separate.open_ present
  | on opened => exact Separate.update (separate.print _) opened

end LuaKernel.Records
