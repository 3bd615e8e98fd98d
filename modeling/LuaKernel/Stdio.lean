import LuaKernel.Grid
import LuaKernel.Writev

/-! Output through `stdout` of musl, as `print`, `io.write` and `puts` use it: a FILE whose buffer
is given to SYS_writev with the next text, all at once or in as many parts as the kernel takes. A
null pointer is 0. -/
namespace LuaKernel.Stdio

open Bytes Grid Strings

def F_NOWR : Nat := 8
def F_ERR : Nat := 32
def F_SVB : Nat := 64
def EOF : Int := -1
def BUFSIZ : Nat := 1024

/-- The two system calls, over the kernel's state; `none` is an error that leaves the C code. -/
structure Calls (K : Type) where
  writev : Int → List Bytes → K → Option (Int × K)
  ioctl : Int → Int

/-- `first` says that `write` is still `__stdout_write`. -/
structure FILE where
  flags : Nat
  wend : Nat
  wpos : Nat
  wbase : Nat
  buf : Nat
  bufSize : Nat
  fd : Int
  lbf : Int
  first : Bool

structure Stream (K : Type) where
  file : FILE
  memory : Memory
  kernel : K

def Stream.pending (s : Stream K) : Bytes :=
  copy s.memory s.file.wbase (s.file.wpos - s.file.wbase)

def FILE.rewound (f : FILE) : FILE :=
  { f with wend := f.buf + f.bufSize, wpos := f.buf, wbase := f.buf }

def FILE.cleared (f : FILE) : FILE := { f with wend := 0, wpos := 0, wbase := 0 }

def stdout (buf : Nat) : FILE where
  flags := 1 ||| 4
  wend := 0
  wpos := 0
  wbase := 0
  buf := buf
  bufSize := BUFSIZ
  fd := 1
  lbf := 10
  first := true

def towrite (f : FILE) : Int × FILE :=
  if f.flags &&& F_NOWR ≠ 0 then (EOF, { f with flags := f.flags ||| F_ERR })
  else (0, f.rewound)

def lineEnd (text : Bytes) : Nat → Nat
  | 0 => 0
  | i + 1 => if text.getD i 0 ≠ Terminal.newline then lineEnd text i else i + 1

def Stream.append (text : Bytes) (s : Stream K) : Stream K :=
  { s with
    file := { s.file with wpos := s.file.wpos + text.length }
    memory := put s.memory s.file.wpos text }

section Functions

variable {K : Type} (calls : Calls K)

/-- `for (;;)` of `__stdio_write`, for the parts in `iov`. A call that takes nothing is made again;
the fuel lets each take one byte. -/
def writeLoop (len : Nat) : Nat → List Bytes → Nat → Stream K → Option (Nat × Stream K)
  | 0, _, _, _ => none
  | fuel + 1, iov, rem, s => do
    let (cnt, kernel) ← calls.writev s.file.fd iov s.kernel
    let cnt := Writev.syscallRet cnt
    let s := { s with kernel := kernel }
    if cnt = rem then return (len, { s with file := s.file.rewound }) else
    if cnt < 0 then
      let file := { s.file.cleared with flags := s.file.flags ||| F_ERR }
      return (if iov.length = 2 then 0 else len - (iov.headD []).length, { s with file := file })
    else
    let cnt := cnt.toNat
    match iov with
    | [buffered, text] =>
      if buffered.length < cnt then
        let file := { s.file with wpos := s.file.buf, wbase := s.file.buf }
        writeLoop len fuel [text.drop (cnt - buffered.length)] (rem - cnt) { s with file := file }
      else
        let file := { s.file with wbase := s.file.wbase + cnt }
        writeLoop len fuel [buffered.drop cnt, text] (rem - cnt) { s with file := file }
    | [text] => if text.length < cnt then none else writeLoop len fuel [text.drop cnt] (rem - cnt) s
    | _ => none

def stdioWrite (text : Bytes) (s : Stream K) : Option (Nat × Stream K) :=
  let rem := s.pending.length + text.length
  writeLoop calls text.length (rem + 1) [s.pending, text] rem s

/-- The first write of `stdout` asks whether it is a terminal. -/
def stdoutWrite (text : Bytes) (s : Stream K) : Option (Nat × Stream K) :=
  let file := { s.file with first := false }
  let file := if file.flags &&& F_SVB = 0 ∧ calls.ioctl file.fd ≠ 0 then { file with lbf := -1 }
    else file
  stdioWrite calls text { s with file := file }

def write (text : Bytes) (s : Stream K) : Option (Nat × Stream K) :=
  if s.file.first then stdoutWrite calls text s else stdioWrite calls text s

def fwritex (text : Bytes) (s : Stream K) : Option (Nat × Stream K) :=
  let (error, file) := if s.file.wend = 0 then towrite s.file else (0, s.file)
  let s := { s with file := file }
  if error ≠ 0 then some (0, s) else
  if s.file.wend - s.file.wpos < text.length then write calls text s else
  let i := if 0 ≤ s.file.lbf then lineEnd text text.length else 0
  if i ≠ 0 then do
    let (n, s) ← write calls (text.take i) s
    if n < i then return (i, s)
    return (text.length - i + i, s.append (text.drop i))
  else some (text.length + i, s.append text)

def fwrite (size nmemb : Nat) (text : Bytes) (s : Stream K) : Option (Nat × Stream K) := do
  let (k, s) ← fwritex calls text s
  return (if k = size * nmemb then nmemb else k / size, s)

def overflow (c : UInt8) (s : Stream K) : Option (Int × Stream K) :=
  let (error, file) := if s.file.wend = 0 then towrite s.file else (0, s.file)
  let s := { s with file := file }
  if error ≠ 0 then some (EOF, s) else
  if s.file.wpos < s.file.wend ∧ (c.toNat : Int) ≠ s.file.lbf then
    some (c.toNat, s.append [c])
  else do
    let (n, s) ← write calls [c] s
    return (if n ≠ 1 then EOF else c.toNat, s)

def putcUnlocked (c : UInt8) (s : Stream K) : Option (Int × Stream K) :=
  if (c.toNat : Int) ≠ s.file.lbf ∧ s.file.wpos < s.file.wend then some (c.toNat, s.append [c])
  else overflow calls c s

/-- `stdout` is never read, so there is no position to bring back. -/
def fflush (s : Stream K) : Option (Int × Stream K) :=
  if s.file.wbase < s.file.wpos then do
    let (_, s) ← write calls [] s
    if s.file.wpos = 0 then return (EOF, s)
    return (0, { s with file := s.file.cleared })
  else some (0, { s with file := s.file.cleared })

def fputs (text : Bytes) (s : Stream K) : Option (Int × Stream K) := do
  let (n, s) ← fwrite calls text.length 1 text s
  return ((n : Int) - 1, s)

def puts (text : Bytes) (s : Stream K) : Option (Int × Stream K) := do
  let (r, s) ← fputs calls text s
  if r < 0 then return (-1, s)
  let (c, s) ← putcUnlocked calls Terminal.newline s
  return (if c < 0 then -1 else 0, s)

def writestring (text : Bytes) (s : Stream K) : Option (Stream K) :=
  (fwrite calls 1 text.length text s).map Prod.snd

def writeline (s : Stream K) : Option (Stream K) := do
  let s ← writestring calls [Terminal.newline] s
  return (← fflush calls s).2

/-- The loop of `luaB_print` over the texts of its arguments, from argument `i`. -/
def printFrom : Nat → List Bytes → Stream K → Option (Stream K)
  | _, [], s => some s
  | i, text :: rest, s => do
    let s ← if 1 < i then writestring calls [9] s else some s
    printFrom (i + 1) rest (← writestring calls text s)

def print (texts : List Bytes) (s : Stream K) : Option (Stream K) := do
  writeline calls (← printFrom calls 1 texts s)

end Functions

end LuaKernel.Stdio
