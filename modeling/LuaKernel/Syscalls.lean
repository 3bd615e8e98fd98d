import LuaKernel.FileRuns
import LuaKernel.References

/-! The system calls on files in `handle_syscall`, with the registry they take descriptors
from. A descriptor number is a reference into it; the SQLite binding keeps references of its
own there, and slots 1 and 2 hold the main thread and the table of globals. -/
namespace LuaKernel.Syscalls

open Strings References Runs

/-- What a slot of the registry holds. An `atom` is a value without fields, such as a thread
or a function; a `table` is one that is no descriptor and has no field `top`. -/
inductive Object
  | nil
  | number (n : Int)
  | atom (id : Nat)
  | table (id : Nat)
  | descriptor (index : Nat)
  deriving DecidableEq

instance Object.luaValue : LuaValue Object where
  isNil value := value == .nil
  pushInteger := .number
  toInteger
    | .number n => n
    | _ => 0
  toInteger_push := rfl

/-- `tables` are the `pos` fields of tables; `held` are the references of the binding, and
`opened` all that SYS_open has returned. -/
structure State where
  fs : Files.FileSystem
  registry : Int → Object
  tables : Nat → Option Int
  held : List Int
  opened : List Int

/-- System calls and what the binding does with the registry; `len` is the length of the
registry as `lua_rawlen` gives it. -/
inductive Call
  | open_ (pathname : String) (flags len : Nat)
  | close (fd : Int)
  | lseek (fd offset whence : Int)
  | read (fd : Int) (count : Nat)
  | write (fd : Int) (buf : Bytes)
  | ref (value : Object) (len : Nat)
  | unref (ref : Int)

/-- A conversion of a number to `int`; out of range the processor gives its least. -/
def toInt (n : Int) : Int := if -2 ^ 31 ≤ n ∧ n < 2 ^ 31 then n else -2 ^ 31

/-- `fd.pos` as a number; `none` is an error, here and below. -/
def getPos (s : State) : Object → Option Int
  | .descriptor i => s.fs.fds[i]?.map (·.pos)
  | .table id => s.tables id
  | _ => none

def setPos (pos : Int) (s : State) : Object → Option (Int × State)
  | .descriptor i => s.fs.fds[i]?.map fun _ => (pos, { s with fs := Files.seek i pos s.fs })
  | .table id => some (pos, { s with tables := Function.update s.tables id (some pos) })
  | _ => none

def lseek (fd : Object) (offset whence : Int) (s : State) : Option (Int × State) :=
  if whence = Files.SEEK_SET then setPos (offset + 1) s fd
  else if whence = Files.SEEK_CUR then
    (getPos s fd).bind fun pos => setPos (pos + offset) s fd
  else some (-1, s)

def read (count : Nat) (s : State) : Object → Option (Bytes × State)
  | .descriptor i =>
    (Files.sysRead i count s.fs).map fun (bytes, fs) => (bytes, { s with fs := fs })
  | _ => none

/-- What `createstrobj` asks the allocator for: a TString, the bytes and a final zero. -/
def stringSize (len : Nat) : Nat := 24 + (len + 1)

/-- A new string, by `lua_pushlstring` or a concatenation; `none` is the error of one that the
allocator never has room for. -/
def pushlstring (buf : Bytes) : Option Bytes :=
  if stringSize buf.length ≤ 0x40000000 then some buf else none

/-- `write`; anything that equals `stdout` goes to the terminal. -/
def write (buf : Bytes) (s : State) : Object → Option (Nat × State)
  | .number n => if n = 1 then
      some (buf.length, { s with fs := { s.fs with stdout := s.fs.stdout ++ buf } })
    else none
  | .descriptor i => do
    let (count, fs) ← Files.write i buf s.fs
    let _ ← (Files.contentOf i fs).bind pushlstring
    return (count, { s with fs := fs })
  | _ => none

def openValue : Option Nat → Object
  | some i => .descriptor i
  | none => .number (-1)

def handle (s : State) : Call → Option (Int × State)
  | .open_ pathname flags len =>
    let (result, fs) := Files.open_ pathname flags s.fs
    let (fd, registry) := luaLRef s.registry (openValue result) len
    some (fd, { s with fs := fs, registry := registry, opened := fd :: s.opened })
  | .close _ => some (0, s)
  | .lseek fd offset whence =>
    (lseek (s.registry fd) offset whence s).map fun (pos, s) => (toInt pos, s)
  | .read fd count =>
    (read count s (if fd ≠ 0 then s.registry fd else .number fd)).map fun (bytes, s) =>
      (bytes.length, s)
  | .write fd buf => do
    let buf ← pushlstring buf
    let (count, s) ← write buf s (if fd ≠ 1 then s.registry fd else .number fd)
    return (toInt count, s)
  | .ref value len =>
    let (ref, registry) := luaLRef s.registry value len
    some (ref,
      { s with registry := registry, held := if 0 ≤ ref then ref :: s.held else s.held })
  | .unref ref =>
    some (0, { s with registry := luaLUnref s.registry ref, held := s.held.erase ref })

def Known (s : State) : Object → Prop
  | .descriptor i => i < s.fs.fds.length
  | _ => True

instance Known.decidable (s : State) (value : Object) : Decidable (Known s value) := by
  cases value <;> unfold Known <;> infer_instance

/-- The length is one the registry can have, and the binding gives back only what it owns; a
negative reference is no reference. -/
def Enabled (s : State) : Call → Prop
  | .open_ _ _ len => Border s.registry len
  | .ref value len => Border s.registry len ∧ Known s value
  | .unref ref => ref ∈ s.held ∨ ref < 0
  | _ => True

instance Enabled.decidable (s : State) (call : Call) : Decidable (Enabled s call) := by
  cases call <;> unfold Enabled <;> infer_instance

/-- An error is not caught: it unwinds the kernel, and there is no next state. -/
def step (s : State) (call : Call) : Option State :=
  if Enabled s call then (handle s call).map (·.2) else none

/-- What reading, writing and moving leave alone: everything about references, and the links
from descriptors to files. -/
structure Frame (s next : State) : Prop where
  registry : next.registry = s.registry
  held : next.held = s.held
  opened : next.opened = s.opened
  length : s.fs.fds.length ≤ next.fs.fds.length
  present : Files.Present s.fs → Files.Present next.fs

theorem Frame.refl (s : State) : Frame s s := ⟨rfl,rfl,rfl,Nat.le_refl _,id⟩

/-- An operation of the file system inside a call. -/
theorem Frame.performs (s : State) (done : Files.Performs s.fs op answer fs) :
    Frame s { s with fs := fs } := ⟨rfl,rfl,rfl,done.length,done.present⟩

theorem setPos_frame (done : setPos pos s fd = some (value, next)) : Frame s next := by
  cases fd with
  | descriptor i =>
    obtain ⟨_,-,same⟩ := Option.map_eq_some_iff.mp done
    obtain ⟨-,rfl⟩ := by simpa using same
    exact ⟨rfl,rfl,rfl,by simp [Files.seek],Files.Present.seek⟩
  | table id =>
    obtain ⟨-,rfl⟩ := by simpa [setPos] using done
    exact ⟨rfl,rfl,rfl,Nat.le_refl _,fun present => present⟩
  | _ => contradiction

theorem lseek_frame (done : lseek fd offset whence s = some (value, next)) : Frame s next := by
  rw [lseek] at done
  split at done
  · exact setPos_frame done
  · split at done
    · obtain ⟨pos,-,moved⟩ := Option.bind_eq_some_iff.mp done
      exact setPos_frame moved
    · obtain ⟨-,rfl⟩ := by simpa using done
      exact .refl s

theorem read_frame (done : read count s fd = some (bytes, next)) : Frame s next := by
  cases fd with
  | descriptor i =>
    obtain ⟨⟨_,fs⟩,copied,same⟩ := Option.map_eq_some_iff.mp done
    obtain ⟨-,rfl⟩ := by simpa using same
    obtain ⟨⟨value,after⟩,result,same⟩ := Option.map_eq_some_iff.mp copied
    obtain ⟨-,rfl⟩ := by simpa using same
    have performed : Files.perform s.fs (.read i count) = some (.data value, after) := by
      simp [Files.perform,result]
    exact .performs s (Files.perform_performs s.fs after (.data value) performed)
  | _ => contradiction

theorem write_frame (done : write buf s fd = some (count, next)) : Frame s next := by
  cases fd with
  | number n =>
    rw [write] at done
    split at done
    · obtain ⟨-,rfl⟩ := by simpa using done
      exact ⟨rfl,rfl,rfl,Nat.le_refl _,fun present => present⟩
    · contradiction
  | descriptor i =>
    obtain ⟨⟨count',fs⟩,result,more⟩ := Option.bind_eq_some_iff.mp done
    obtain ⟨_,-,same⟩ := Option.bind_eq_some_iff.mp more
    obtain ⟨-,rfl⟩ := by simpa using same
    have performed : Files.perform s.fs (.write i buf) = some (.written count', fs) := by
      simp [Files.perform,result]
    exact .performs s (Files.perform_performs s.fs fs (.written count') performed)
  | _ => contradiction

inductive Moves (s : State) : Call → State → Prop
  | opened (border : Border s.registry len) :
      Moves s (.open_ pathname flags len)
        { s with
          fs := (Files.open_ pathname flags s.fs).2
          registry :=
            (luaLRef s.registry (openValue (Files.open_ pathname flags s.fs).1) len).2
          opened :=
            (luaLRef s.registry (openValue (Files.open_ pathname flags s.fs).1) len).1 ::
              s.opened }
  | framed (frame : Frame s next) : Moves s call next
  | stored (border : Border s.registry len) (known : Known s value) :
      Moves s (.ref value len)
        { s with
          registry := (luaLRef s.registry value len).2
          held := if 0 ≤ (luaLRef s.registry value len).1 then
              (luaLRef s.registry value len).1 :: s.held
            else s.held }
  | released (owned : ref ∈ s.held ∨ ref < 0) :
      Moves s (.unref ref)
        { s with registry := luaLUnref s.registry ref, held := s.held.erase ref }

theorem step_moves (s next : State) (moved : step s call = some next) : Moves s call next := by
  rw [step] at moved
  split at moved
  · rename_i enabled
    obtain ⟨⟨value,_⟩,done,rfl⟩ := Option.map_eq_some_iff.mp moved
    cases call with
    | open_ pathname flags len =>
      obtain ⟨-,rfl⟩ := by simpa [handle] using done
      exact .opened enabled
    | close fd =>
      obtain ⟨-,rfl⟩ := by simpa [handle] using done
      exact .framed (.refl s)
    | lseek fd offset whence =>
      obtain ⟨_,sought,same⟩ := Option.map_eq_some_iff.mp done
      obtain ⟨-,rfl⟩ := by simpa using same
      exact .framed (lseek_frame sought)
    | read fd count =>
      obtain ⟨_,copied,same⟩ := Option.map_eq_some_iff.mp done
      obtain ⟨-,rfl⟩ := by simpa using same
      exact .framed (read_frame copied)
    | write fd buf =>
      obtain ⟨_,-,more⟩ := Option.bind_eq_some_iff.mp done
      obtain ⟨_,written,same⟩ := Option.bind_eq_some_iff.mp more
      obtain ⟨-,rfl⟩ := by simpa using same
      exact .framed (write_frame written)
    | ref stored len =>
      obtain ⟨-,rfl⟩ := by simpa [handle] using done
      exact .stored enabled.1 enabled.2
    | unref ref =>
      obtain ⟨-,rfl⟩ := by simpa [handle] using done
      exact .released enabled
  · contradiction

end LuaKernel.Syscalls
