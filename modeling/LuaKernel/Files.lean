import LuaKernel.Numbers
import LuaKernel.Strings

/-! The file system of `luakernel.lua` and the system call that reads from it. A record of `fs`
is named by its path, for records are never replaced; a descriptor by its place in the list
of those opened. Positions are integers, as Lua's numbers are up to 2^53; `FileNumbers` rounds
them. -/
namespace LuaKernel.Files

open Strings

/-- A record of `fs`: its content, and whether it has the handlers of `/dev/null` and
`/dev/urandom`. -/
structure File where
  buf : Bytes
  device : Bool

structure Descriptor where
  top : String
  pos : Int

structure FileSystem where
  files : String → Option File
  fds : List Descriptor
  stdout : Bytes

/-- What `read` returns: a string, or a number from a device's handler. -/
inductive Value
  | str (bytes : Bytes)
  | num (n : Nat)

def tolstring : Value → Bytes
  | .str bytes => bytes
  | .num n => Numbers.format (Numbers.toDouble n)

def print (text : Bytes) (fs : FileSystem) : FileSystem :=
  { fs with stdout := fs.stdout ++ text ++ [10] }

def O_CREAT : Nat := 64
def O_APPEND : Nat := 1024

def text (s : String) : Bytes := s.toUTF8.toList

/-- `open`: `none` is the returned -1. -/
def open_ (pathname : String) (flags : Nat) (fs : FileSystem) : Option Nat × FileSystem :=
  if fs.files pathname = none ∧ flags &&& O_CREAT ≠ O_CREAT then (none, fs) else
  let fs := if fs.files pathname = none ∧ flags &&& O_CREAT = O_CREAT then
      { print (text "creat") fs with
        files := Function.update fs.files pathname (some ⟨[], false⟩) }
    else fs
  let size : Int := ((fs.files pathname).map (·.buf.length)).getD 0
  -- The source compares the masked flag with the other constant.
  let append := flags &&& O_APPEND = O_CREAT
  let fs := if append then print (text "append") fs else fs
  (some fs.fds.length,
    { fs with fds := fs.fds ++ [⟨pathname, if append then size else 1⟩] })

def SEEK_SET : Int := 0
def SEEK_CUR : Int := 1
def SEEK_END : Int := 2

def seek (fd : Nat) (pos : Int) (fs : FileSystem) : FileSystem :=
  { fs with fds := fs.fds.modify fd fun d => { d with pos := pos } }

/-- `lseek` on an open descriptor; `none` is the error of indexing anything else. -/
def lseek (fd : Nat) (offset whence : Int) (fs : FileSystem) : Option (Int × FileSystem) :=
  fs.fds[fd]?.map fun d =>
    if whence = SEEK_SET then (offset + 1, seek fd (offset + 1) fs)
    else if whence = SEEK_CUR then (d.pos + offset, seek fd (d.pos + offset) fs)
    else if whence = SEEK_END then (-1, fs)
    else (-1, fs)

def sinsert (str val : Bytes) (pos : Int) : Bytes :=
  strSub str 0 pos ++ val ++ strSub str (pos + 1) (-1)

/-- From an offset inside the file or at its end the two halves are the file. -/
theorem sinsert_inside (str val : Bytes) (pos : Nat) :
    sinsert str val pos = str.take pos ++ val ++ str.drop pos := by
  rw [sinsert,strSub_take,strSub_drop]

/-- At a position inside the file the halves do not overlap. -/
theorem sinsert_length (str val : Bytes) (pos : Int) (inside : 0 ≤ pos) :
    (sinsert str val pos).length = str.length + val.length := by
  obtain ⟨p,rfl⟩ := Int.eq_ofNat_of_zero_le inside
  rw [sinsert_inside]
  simp only [List.length_append,List.length_take,List.length_drop]
  omega

/-- `write` on a descriptor other than standard output. -/
def write (fd : Nat) (buf : Bytes) (fs : FileSystem) : Option (Nat × FileSystem) := do
  let d ← fs.fds[fd]?
  let file ← fs.files d.top
  let files := Function.update fs.files d.top
    (some { file with buf := sinsert file.buf buf d.pos })
  return (buf.length, seek fd (d.pos + buf.length) { fs with files := files })

def contentOf (fd : Nat) (fs : FileSystem) : Option Bytes :=
  (fs.fds[fd]?.bind fun d => fs.files d.top).map (·.buf)

def read (fd count : Nat) (fs : FileSystem) : Option (Value × FileSystem) := do
  let d ← fs.fds[fd]?
  let file ← fs.files d.top
  if file.device then return (.num count, fs)
  let buf := strSub file.buf d.pos (d.pos + count)
  return (.str buf, seek fd (d.pos + count) (print buf fs))

/-- `SYS_read`: the bytes copied into the caller's buffer, whose number it returns. -/
def sysRead (fd count : Nat) (fs : FileSystem) : Option (Bytes × FileSystem) :=
  (read fd count fs).map fun (value, fs) => (tolstring value, fs)

structure Regular (fs : FileSystem) (fd : Nat) (d : Descriptor) (file : File) : Prop where
  opened : fs.fds[fd]? = some d
  record : fs.files d.top = some file
  plain : file.device = false

theorem sysRead_regular (regular : Regular fs fd d file) (count : Nat) :
    sysRead fd count fs = some (strSub file.buf d.pos (d.pos + count),
      seek fd (d.pos + count) (print (strSub file.buf d.pos (d.pos + count)) fs)) := by
  simp [sysRead,read,regular.opened,regular.record,regular.plain,tolstring]

theorem Regular.moved (regular : Regular fs fd d file) (pos : Int) (text : Bytes) :
    Regular (seek fd pos (print text fs)) fd { d with pos := pos } file :=
  ⟨by simp [seek,print,regular.opened],regular.record,regular.plain⟩

end LuaKernel.Files
