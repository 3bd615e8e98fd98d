import LuaKernel.BuddyBooks
import LuaKernel.Grid
import LuaKernel.HeapConfig
import LuaKernel.LinkedLists
import LuaKernel.Loops
import LuaKernel.Sqlite

/-! SQLite's memsys5, the allocator under every byte the kernel's Lua uses. The free lists are
threaded through the free chunks themselves and one control byte per block lies behind the pool,
so the state is the memory SQLite was given, the heads of the lists and the counters. The mutex
calls do nothing in a build without threads, and no log or debug fill is compiled in. -/
namespace LuaKernel.Memsys5

open Bytes Grid Loops

def LOGMAX : Nat := 30
def CTRL_LOGSIZE : Nat := 0x1f
def CTRL_FREE : Nat := 0x20

/-- The members of `mem5` that `memsys5Init` sets once. -/
structure Layout where
  szAtom : Nat
  nBlock : Nat
  zPool : Nat

namespace Layout

/-- `&mem5.zPool[idx * mem5.szAtom]`, the address of a block. -/
def block (g : Layout) (idx : Nat) : Nat := g.zPool + idx * g.szAtom

def aCtrl (g : Layout) : Nat := g.block g.nBlock

end Layout

structure Stats where
  nAlloc : UInt64
  totalAlloc : UInt64
  totalExcess : UInt64
  currentOut : UInt32
  currentCount : UInt32
  maxOut : UInt32
  maxCount : UInt32
  maxRequest : UInt32

structure Chunks where
  memory : Memory
  aiFreelist : List Int

structure Mem5 where
  chunks : Chunks
  stats : Stats

def word (value : Int) : Nat := (value % 2 ^ 32).toNat

section Links

variable (g : Layout)

def linkNext (i : Nat) (m : Memory) : Int := int32 (load m (g.block i) 4)

def linkPrev (i : Nat) (m : Memory) : Int := int32 (load m (g.block i + 4) 4)

def setNext (i : Nat) (value : Int) (m : Memory) : Memory :=
  put m (g.block i) (encode (word value) 4)

def setPrev (i : Nat) (value : Int) (m : Memory) : Memory :=
  put m (g.block i + 4) (encode (word value) 4)

def ctrl (i : Nat) (m : Memory) : Nat := (m (g.aCtrl + i)).toNat

def setCtrl (i value : Nat) (m : Chunks) : Chunks :=
  { m with memory := Function.update m.memory (g.aCtrl + i) (UInt8.ofNat value) }

def head (iLogsize : Nat) (m : Chunks) : Int := m.aiFreelist.getD iLogsize (-1)

def memsys5Unlink (i iLogsize : Nat) (m : Chunks) : Chunks :=
  let next := linkNext g i m.memory
  let prev := linkPrev g i m.memory
  let m := if prev < 0 then { m with aiFreelist := m.aiFreelist.set iLogsize next }
    else { m with memory := setNext g prev.toNat next m.memory }
  if 0 ≤ next then { m with memory := setPrev g next.toNat prev m.memory } else m

def memsys5Link (i iLogsize : Nat) (m : Chunks) : Chunks :=
  let x := head iLogsize m
  let memory := setPrev g i (-1) (setNext g i x m.memory)
  let memory := if 0 ≤ x then setPrev g x.toNat i memory else memory
  { m with memory := memory, aiFreelist := m.aiFreelist.set iLogsize i }

end Links

/-- `for(iBin=iLogsize; iBin<=LOGMAX && mem5.aiFreelist[iBin]<0; iBin++){}` -/
def binLoop (m : Chunks) : Nat → Nat → Nat
  | 0, iBin => iBin
  | fuel + 1, iBin =>
    if iBin ≤ LOGMAX ∧ head iBin m < 0 then binLoop m fuel (iBin + 1) else iBin

/-- `while( iBin>iLogsize )`: the upper half goes onto the next smaller list. -/
def splitLoop (g : Layout) (i iLogsize : Nat) : Nat → Chunks → Chunks
  | 0, m => m
  | iBin + 1, m =>
    if iLogsize < iBin + 1 then
      splitLoop g i iLogsize iBin
        (memsys5Link g (i + 2 ^ iBin) iBin (setCtrl g (i + 2 ^ iBin) (CTRL_FREE ||| iBin) m))
    else m

/-- The part of `memsys5MallocUnsafe` from the choice of a list to the control byte: the index
of the chunk, or `none` where every list is empty. -/
def checkOut (g : Layout) (iLogsize : Nat) (m : Chunks) : Option (Nat × Chunks) :=
  let iBin := binLoop m (LOGMAX + 1) iLogsize
  if LOGMAX < iBin then none else
  let i := (head iBin m).toNat
  let m := splitLoop g i iLogsize iBin (memsys5Unlink g i iBin m)
  some (i, setCtrl g i iLogsize m)

def Stats.requested (nByte : Nat) (s : Stats) : Stats :=
  if s.maxRequest < UInt32.ofNat nByte then { s with maxRequest := UInt32.ofNat nByte } else s

def Stats.allocated (iFullSz nByte : Nat) (s : Stats) : Stats :=
  let currentCount := s.currentCount + 1
  let currentOut := s.currentOut + UInt32.ofNat iFullSz
  { s with
    nAlloc := s.nAlloc + 1
    totalAlloc := s.totalAlloc + UInt64.ofNat iFullSz
    totalExcess := s.totalExcess + UInt64.ofNat (iFullSz - nByte)
    currentCount := currentCount
    currentOut := currentOut
    maxCount := if s.maxCount < currentCount then currentCount else s.maxCount
    maxOut := if s.maxOut < currentOut then currentOut else s.maxOut }

def Stats.freed (bytes : Nat) (s : Stats) : Stats :=
  { s with
    currentCount := s.currentCount - 1
    currentOut := s.currentOut - UInt32.ofNat bytes }

def memsys5MallocUnsafe (g : Layout) (nByte : Nat) (m : Mem5) : Nat × Mem5 :=
  let stats := m.stats.requested nByte
  if 0x40000000 < nByte then (0, { m with stats := stats }) else
  let (iFullSz, iLogsize) := Sqlite.roundLoop nByte LOGMAX g.szAtom 0
  match checkOut g iLogsize m.chunks with
  | none => (0, { m with stats := stats })
  | some (i, chunks) => (g.block i, ⟨chunks, stats.allocated iFullSz nByte⟩)

/-- `while( ALWAYS(iLogsize<LOGMAX) )`: as long as the buddy is free and as large, the two become
one. The fuel is the distance to LOGMAX. -/
def mergeLoop (g : Layout) : Nat → Nat → Nat → Nat → Chunks → Nat × Nat × Chunks
  | 0, iBlock, iLogsize, _, m => (iBlock, iLogsize, m)
  | fuel + 1, iBlock, iLogsize, size, m =>
    let iBuddy := if iBlock / 2 ^ iLogsize % 2 = 1 then iBlock - size else iBlock + size
    if g.nBlock < iBuddy + 2 ^ iLogsize then (iBlock, iLogsize, m)
    else if ctrl g iBuddy m.memory ≠ CTRL_FREE ||| iLogsize then (iBlock, iLogsize, m)
    else
      let m := memsys5Unlink g iBuddy iLogsize m
      if iBuddy < iBlock then
        mergeLoop g fuel iBuddy (iLogsize + 1) (size * 2)
          (setCtrl g iBlock 0 (setCtrl g iBuddy (CTRL_FREE ||| (iLogsize + 1)) m))
      else
        mergeLoop g fuel iBlock (iLogsize + 1) (size * 2)
          (setCtrl g iBuddy 0 (setCtrl g iBlock (CTRL_FREE ||| (iLogsize + 1)) m))

/-- What `memsys5FreeUnsafe` does to the chunks. -/
def giveBack (g : Layout) (iBlock iLogsize : Nat) (m : Chunks) : Chunks :=
  let size := 2 ^ iLogsize
  let last := iBlock + size - 1
  let m := setCtrl g iBlock (ctrl g iBlock m.memory ||| CTRL_FREE) m
  let m := setCtrl g last (ctrl g last m.memory ||| CTRL_FREE) m
  let m := setCtrl g iBlock (CTRL_FREE ||| iLogsize) m
  let (iBlock, iLogsize, m) := mergeLoop g (LOGMAX - iLogsize) iBlock iLogsize size m
  memsys5Link g iBlock iLogsize m

def logOf (g : Layout) (iBlock : Nat) (m : Chunks) : Nat := ctrl g iBlock m.memory &&& CTRL_LOGSIZE

def indexOf (g : Layout) (p : Nat) : Nat := (p - g.zPool) / g.szAtom

def memsys5FreeUnsafe (g : Layout) (pOld : Nat) (m : Mem5) : Mem5 :=
  let iBlock := indexOf g pOld
  let iLogsize := logOf g iBlock m.chunks
  ⟨giveBack g iBlock iLogsize m.chunks, m.stats.freed (2 ^ iLogsize * g.szAtom)⟩

def memsys5Size (g : Layout) (p : Nat) (m : Mem5) : Nat :=
  if p = 0 then 0 else
  g.szAtom * 2 ^ logOf g (indexOf g p) m.chunks

def memsys5Malloc (g : Layout) (nBytes : Nat) (m : Mem5) : Nat × Mem5 :=
  if 0 < nBytes then memsys5MallocUnsafe g nBytes m else (0, m)

def memsys5Free (g : Layout) (pPrior : Nat) (m : Mem5) : Mem5 := memsys5FreeUnsafe g pPrior m

/-- `memcpy(p, pPrior, n)` between chunks that do not overlap. -/
def memcpy (p pPrior n : Nat) (m : Mem5) : Mem5 :=
  let memory := m.chunks.memory
  { m with chunks := { m.chunks with memory := put memory p (copy memory pPrior n) } }

def memsys5Realloc (g : Layout) (pPrior nBytes : Nat) (m : Mem5) : Nat × Mem5 :=
  if nBytes = 0 then (0, m) else
  let nOld := memsys5Size g pPrior m
  if nBytes ≤ nOld then (pPrior, m) else
  let (p, m) := memsys5MallocUnsafe g nBytes m
  if p ≠ 0 then (p, memsys5FreeUnsafe g pPrior (memcpy p pPrior nOld m)) else (p, m)

def memsys5Roundup (g : Layout) (n : Nat) : Nat :=
  if 0x40000000 < n then 0 else (Sqlite.roundLoop n LOGMAX g.szAtom 0).1

/-- `for(iLog=0; iLog<31 && (1<<iLog)<iValue; iLog++);` -/
def logLoop (iValue : Int) : Nat → Nat → Nat
  | 0, iLog => iLog
  | fuel + 1, iLog => if 2 ^ iLog < iValue then logLoop iValue fuel (iLog + 1) else iLog

def memsys5Log (iValue : Int) : Nat := logLoop iValue 31 0

def sizeofMem5Link : Nat := 8

/-- `while( (int)sizeof(Mem5Link)>mem5.szAtom )` -/
def atomLoop : Nat → Nat → Nat
  | 0, szAtom => szAtom
  | fuel + 1, szAtom => if szAtom < sizeofMem5Link then atomLoop fuel (szAtom * 2) else szAtom

/-- The division is in `size_t`, its result an `int`; a negative number of blocks takes every
branch that none takes. -/
def layout (c : HeapConfig.Config) : Layout :=
  let szAtom := atomLoop 3 (2 ^ memsys5Log c.mnReq)
  { szAtom := szAtom
    nBlock := (int32 ((c.nHeap % 2 ^ 64).toNat / (szAtom + 1))).toNat
    zPool := c.pHeap }

/-- `for(ii=LOGMAX; ii>=0; ii--)`, from `ii + 1` values left. -/
def cutLoop (g : Layout) : Nat → Nat → Chunks → Chunks
  | 0, _, m => m
  | ii + 1, iOffset, m =>
    let nAlloc := 2 ^ ii
    if iOffset + nAlloc ≤ g.nBlock then
      cutLoop g ii (iOffset + nAlloc)
        (memsys5Link g iOffset ii (setCtrl g iOffset (ii ||| CTRL_FREE) m))
    else cutLoop g ii iOffset m

def memsys5Init (c : HeapConfig.Config) (m : Mem5) : Mem5 :=
  let aiFreelist := loop (LOGMAX + 1) (fun ii list => list.set ii (-1)) m.chunks.aiFreelist
  let chunks := { m.chunks with aiFreelist := aiFreelist }
  { m with chunks := cutLoop (layout c) (LOGMAX + 1) 0 chunks }

end LuaKernel.Memsys5
