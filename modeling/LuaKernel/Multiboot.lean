import Mathlib.Logic.Function.Iterate
import LuaKernel.Bytes

/-! `get_multiboot_info` as a machine over the bytes of the boot information block. The
outer walk strides by tag sizes, the inner one by `entry_size`, both read from the data;
each step is one loop test with the body that follows it, and no fuel is involved. -/
namespace LuaKernel.Multiboot

open Bytes

def tagTypeEnd : Nat := 0
def tagTypeMmap : Nat := 6
def tagTypeVbe : Nat := 7
def tagTypeFramebuffer : Nat := 8
def memoryAvailable : Nat := 1

def sizeofVBEModeInfoBlock : Nat := 255

structure Globals where
  modeinfo : List UInt8
  fbmem : Nat
  heapEnd : Nat
  deriving DecidableEq, Repr

def Globals.initial : Globals := ⟨List.replicate sizeofVBEModeInfoBlock 0, 0, 0⟩

/-- A packed `u16` member of the mode block. -/
def field16 (block : List UInt8) (offset : Nat) : Nat :=
  (block.getD offset 0).toNat + 256 * (block.getD (offset + 1) 0).toNat

def bytesPerScanLine (block : List UInt8) : Nat := field16 block 16
def xResolution (block : List UInt8) : Nat := field16 block 18
def yResolution (block : List UInt8) : Nat := field16 block 20
def bitsPerPixel (block : List UInt8) : Nat := (block.getD 25 0).toNat

/-- Where the walk stands: at a tag, at an mmap entry of a tag, or returned. -/
inductive Cursor where
  | tag (tag : Nat)
  | entry (tag entry : Nat)
  | done
  deriving DecidableEq, Repr

structure State where
  cursor : Cursor
  globals : Globals
  deriving DecidableEq, Repr

def tagType (m : Memory) (tag : Nat) : Nat := load m tag 4
def tagSize (m : Memory) (tag : Nat) : Nat := load m (tag + 4) 4

def nextTag (m : Memory) (tag : Nat) : Nat :=
  if tagSize m tag % 8 = 0 then tag + tagSize m tag
  else tag + tagSize m tag + (8 - tagSize m tag % 8)

def handleEntry (m : Memory) (entry : Nat) (g : Globals) : Globals :=
  if load m (entry + 16) 4 = memoryAvailable then
    if load m entry 8 = 0x100000 then
      { g with heapEnd := (load m entry 8 + load m (entry + 8) 8) % 2 ^ 64 }
    else g
  else g

def step (m : Memory) (s : State) : State :=
  match s.cursor with
  | .done => s
  | .tag tag =>
    if tagType m tag = tagTypeEnd then ⟨.done, s.globals⟩
    else if tagType m tag = tagTypeVbe then
      ⟨.tag (nextTag m tag),
        { s.globals with modeinfo := copy m (tag + 528) sizeofVBEModeInfoBlock }⟩
    else if tagType m tag = tagTypeFramebuffer then
      ⟨.tag (nextTag m tag),
        if 0 < xResolution s.globals.modeinfo then
          { s.globals with fbmem := load m (tag + 8) 8 }
        else s.globals⟩
    else if tagType m tag = tagTypeMmap then ⟨.entry tag (tag + 16), s.globals⟩
    else ⟨.tag (nextTag m tag), s.globals⟩
  | .entry tag entry =>
    if entry < tag + tagSize m tag then
      ⟨.entry tag (entry + load m (tag + 8) 4), handleEntry m entry s.globals⟩
    else ⟨.tag (nextTag m tag), s.globals⟩

/-- The first tag follows `total_size` and the reserved word. -/
def start (information : Nat) : State := ⟨.tag (information + 8), Globals.initial⟩

def Returns (m : Memory) (information : Nat) (g : Globals) : Prop :=
  ∃ steps, (step m)^[steps] (start information) = ⟨.done, g⟩

@[simp] theorem step_done (m : Memory) (g : Globals) : step m ⟨.done, g⟩ = ⟨.done, g⟩ := rfl

theorem iterate_done (m : Memory) (g : Globals) (n : Nat) :
    (step m)^[n] ⟨.done, g⟩ = ⟨.done, g⟩ :=
  Function.iterate_fixed (step_done m g) n

inductive Visit where
  | tag (tag : Nat)
  | entry (entry : Nat)
  deriving DecidableEq, Repr

def visit (m : Memory) (s : State) : List Visit :=
  match s.cursor with
  | .done => []
  | .tag tag => if tagType m tag = tagTypeEnd then [] else [.tag tag]
  | .entry tag entry => if entry < tag + tagSize m tag then [.entry entry] else []

def visits (m : Memory) (s : State) : Nat → List Visit
  | 0 => []
  | n + 1 => visit m s ++ visits m (step m s) n

/-- From `s` the machine comes to `t` and looks at exactly `seen` on the way. -/
def Walks (m : Memory) (s : State) (seen : List Visit) (t : State) : Prop :=
  ∃ n, (step m)^[n] s = t ∧ visits m s n = seen

theorem visits_add (m : Memory) (s : State) (a b : Nat) :
    visits m s (a + b) = visits m s a ++ visits m ((step m)^[a] s) b := by
  induction a generalizing s with
  | zero => simp [visits]
  | succ a ih =>
    rw [Nat.succ_add,visits,ih (step m s),visits,List.append_assoc,Function.iterate_succ_apply]

theorem Walks.trans (first : Walks m s seen t) (second : Walks m t more u) :
    Walks m s (seen ++ more) u := by
  obtain ⟨a,ha,seenA⟩ := first
  obtain ⟨b,hb,seenB⟩ := second
  refine ⟨a + b,?_,?_⟩
  · rw [Nat.add_comm,Function.iterate_add_apply,ha,hb]
  · rw [visits_add,ha,seenA,seenB]

theorem Walks.step (m : Memory) (s : State) : Walks m s (visit m s) (step m s) :=
  ⟨1,rfl,by simp [visits]⟩

end LuaKernel.Multiboot
