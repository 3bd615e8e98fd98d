import LuaKernel.InterruptEntry
import LuaKernel.Loops

/-! `setup_IDT` against the stubs of `interrupt.S`. The loop steps addresses by a constant, the
assembler places each stub at the next multiple of 32, and the processor puts an offset together
from the bytes of the table; the three have to meet at every vector. -/
namespace LuaKernel.IdtSetup

open Bytes X86 InterruptEntry Loops

/-- `init.c` is compiled for 32 bits, so an address is a `u32` in it. -/
structure Idtr where
  limit : Nat
  base : Nat

structure Tables where
  idt : Nat → Descriptor
  idtr : Idtr

def setIDT (number base selector flags : Nat) (t : Tables) : Tables :=
  { t with
    idt := Function.update t.idt (number % 2 ^ 8) (InterruptEntry.setIDT base selector flags) }

def arraylen : Nat := 256
def sizeofDescriptor : Nat := 16

/-- A round of the loop of `setup_IDT`: the table and `addr`. -/
def round (i : Nat) (s : Tables × Nat) : Tables × Nat :=
  (setIDT i s.2 0x08 0x8E s.1, (s.2 + 32) % 2 ^ 32)

def start (idt : UInt32) (handleInterrupt0 : Nat) (t : Tables) : Tables × Nat :=
  ({ t with idtr := ⟨(sizeofDescriptor * arraylen - 1) % 2 ^ 16, idt.toNat⟩ },
    handleInterrupt0 % 2 ^ 32)

def setupIDT (idt : UInt32) (handleInterrupt0 : Nat) (t : Tables) : Tables :=
  (loop arraylen round (start idt handleInterrupt0 t)).1

/-- After the loop every entry points 32 bytes behind the one before it. -/
theorem setupIDT_entry (idt : UInt32) (handleInterrupt0 : Nat) (t : Tables) (n : Nat)
    (vector : n < 256) :
    (setupIDT idt handleInterrupt0 t).idt n = InterruptEntry.setupIDT handleInterrupt0 n := by
  have done := loop_invariant
    (fun i s => s.2 = (handleInterrupt0 + 32 * i) % 2 ^ 32 ∧
      ∀ j, j < i → s.1.idt j = InterruptEntry.setupIDT handleInterrupt0 j)
    arraylen round (start idt handleInterrupt0 t)
    ⟨rfl,fun _ below => absurd below (Nat.not_lt_zero _)⟩ ?_
  · exact done.2 n vector
  · rintro i ⟨u,addr⟩ inside ⟨rfl,earlier⟩
    have number : i % 256 = i := Nat.mod_eq_of_lt inside
    refine ⟨by simp only [round]; omega,fun j below => ?_⟩
    by_cases here : j = i
    · subst here
      simp [round,setIDT,number,InterruptEntry.setupIDT]
    · simpa [round,setIDT,number,here] using earlier j (by omega)

theorem setupIDT_idtr (idt : UInt32) (handleInterrupt0 : Nat) (t : Tables) :
    (setupIDT idt handleInterrupt0 t).idtr = ⟨sizeofDescriptor * arraylen - 1, idt.toNat⟩ := by
  refine loop_invariant
    (fun _ s => s.1.idtr = ⟨sizeofDescriptor * arraylen - 1, idt.toNat⟩) arraylen round
    (start idt handleInterrupt0 t) rfl ?_
  exact fun _ _ _ same => same

inductive Line
  | align (boundary : Nat)
  | label (vector : Nat)
  | pushRdi
  | movRdi (vector : Nat)
  | jmpHandleInterrupt

def handleInterrupt (n : Nat) : List Line :=
  [.align 32, .label n, .pushRdi, .movRdi n, .jmpHandleInterrupt]

def interruptS : List Line := (List.range 256).flatMap handleInterrupt

def alignUp (boundary loc : Nat) : Nat := (loc + boundary - 1) / boundary * boundary

section Layout

variable (size : Nat → Line → Nat)

def symbol (n : Nat) : List Line → Nat → Option Nat
  | [], _ => none
  | .align boundary :: rest, loc => symbol n rest (alignUp boundary loc)
  | .label vector :: rest, loc => if vector = n then some loc else symbol n rest loc
  | line :: rest, loc => symbol n rest (loc + size loc line)

def locate (address : Nat) : List Line → Nat → List Line
  | [], _ => []
  | .align boundary :: rest, loc => locate address rest (alignUp boundary loc)
  | .label _ :: rest, loc => locate address rest loc
  | line :: rest, loc =>
    if loc = address then line :: rest else locate address rest (loc + size loc line)

def stubEnd (loc n : Nat) : Nat :=
  let loc := loc + size loc .pushRdi
  let loc := loc + size loc (.movRdi n)
  loc + size loc .jmpHandleInterrupt

structure Assembles : Prop where
  bytes : ∀ loc line, 0 < size loc line
  stub : ∀ loc n, stubEnd size loc n ≤ loc + 32

variable {size} (assembles : Assembles size)

include assembles

/-- The stub behind a stub starts 32 bytes further. -/
theorem alignUp_stubEnd (loc n : Nat) (aligned : loc % 32 = 0) :
    alignUp 32 (stubEnd size loc n) = loc + 32 := by
  have some_ := assembles.bytes loc .pushRdi
  have short := assembles.stub loc n
  have begun : loc + size loc .pushRdi ≤ stubEnd size loc n := by
    simp only [stubEnd]
    omega
  rw [alignUp]
  omega

structure Placed (size : Nat → Line → Nat) (base n : Nat) (lines : List Line) (loc : Nat) :
    Prop where
  label : symbol size n lines loc = some (base + 32 * n)
  code : ∃ rest, locate size (base + 32 * n) lines loc =
    .pushRdi :: .movRdi n :: .jmpHandleInterrupt :: rest

/-- An earlier stub holds neither the label nor an instruction at its address. -/
theorem Placed.behind (next : alignUp 32 loc = base + 32 * k) (later : k < n)
    (placed : Placed size base n rest (stubEnd size (base + 32 * k) k)) :
    Placed size base n (handleInterrupt k ++ rest) loc := by
  have bytes := assembles.bytes
  have short := assembles.stub (base + 32 * k) k
  obtain ⟨label,more,code⟩ := placed
  simp only [stubEnd] at short label code
  constructor
  · simpa [handleInterrupt,symbol,next,Nat.ne_of_lt later] using label
  · refine ⟨more,?_⟩
    have third := bytes (base + 32 * k + size (base + 32 * k) .pushRdi +
      size (base + 32 * k + size (base + 32 * k) .pushRdi) (.movRdi k)) .jmpHandleInterrupt
    simp only [handleInterrupt,List.cons_append,List.nil_append,locate,next]
    rw [if_neg (by omega),if_neg (by omega),if_neg (by omega)]
    exact code

theorem placed_stubs (base n k count loc : Nat) (aligned : base % 32 = 0)
    (next : alignUp 32 loc = base + 32 * k) (from_ : k ≤ n) (below : n < k + count) :
    Placed size base n ((List.range' k count).flatMap handleInterrupt) loc := by
  induction count generalizing k loc with
  | zero => omega
  | succ count ih =>
    rw [List.range'_succ,List.flatMap_cons]
    by_cases here : k = n
    · subst here
      exact ⟨by simp [handleInterrupt,symbol,next],by simp [handleInterrupt,locate,next]⟩
    · have behind := alignUp_stubEnd assembles (base + 32 * k) k (by omega)
      have rest := ih (k + 1) (stubEnd size (base + 32 * k) k) (by omega) (by omega) (by omega)
      exact Placed.behind assembles next (by omega) rest

/-- Wherever the file is assembled, the first label lies at a multiple of 32 and the others 32
bytes apart behind it. -/
theorem placed_interruptS (located : symbol size 0 interruptS loc = some base) (n : Nat)
    (vector : n < 256) : Placed size base n interruptS loc := by
  have stubs : interruptS = (List.range' 0 256).flatMap handleInterrupt := by
    rw [interruptS,List.range_eq_range']
  have first : alignUp 32 loc = base := by
    rw [stubs,List.range'_succ,List.flatMap_cons] at located
    exact Option.some.inj located
  have aligned : base % 32 = 0 := by rw [← first,alignUp,Nat.mul_mod_left]
  rw [stubs]
  exact placed_stubs assembles base n 0 256 loc aligned first (Nat.zero_le n) (by omega)

end Layout

def Descriptor.bytes (d : Descriptor) : List UInt8 :=
  encode d.baseLow 2 ++ (encode d.selector 2 ++ (encode d.reserved0 1 ++ (encode d.flags 1 ++
    (encode d.baseMid 2 ++ (encode d.baseHigh 4 ++ encode d.reserved1 4)))))

def Tables.bytes (t : Tables) : List UInt8 :=
  (List.range arraylen).flatMap fun n => Descriptor.bytes (t.idt n)

def Descriptor.offset (d : Descriptor) : Nat :=
  d.baseLow + 2 ^ 16 * d.baseMid + 2 ^ 32 * d.baseHigh

def InterruptGate (flags : Nat) : Prop := flags / 128 % 2 = 1 ∧ flags % 32 = 0xE

instance InterruptGate.decidable (flags : Nat) : Decidable (InterruptGate flags) := by
  unfold InterruptGate
  infer_instance

theorem Descriptor.bytes_length (d : Descriptor) : (Descriptor.bytes d).length = 16 := by
  simp [Descriptor.bytes]

theorem Tables.bytes_length (t : Tables) :
    (Tables.bytes t).length = sizeofDescriptor * arraylen := by
  rw [Tables.bytes,List.length_flatMap]
  simp only [Descriptor.bytes_length,List.map_const',List.length_range,List.sum_replicate_nat]
  rfl

/-- The gate of a vector, read from memory; `none` is a fault. -/
def readGate (idtr : Idtr) (m : Memory) (n : Nat) : Option Gate :=
  let entry := idtr.base + sizeofDescriptor * n
  if sizeofDescriptor * n + 15 ≤ idtr.limit ∧ InterruptGate (load m (entry + 5) 1) then
    some
      { base := .ofNat 64
          (load m entry 2 + 2 ^ 16 * load m (entry + 6) 2 + 2 ^ 32 * load m (entry + 8) 4)
        selector := .ofNat 16 (load m (entry + 2) 2)
        ist := load m (entry + 4) 1 % 8 }
  else none

/-- The instructions up to the jump to `handle_interrupt_`. -/
def untilJump : List Line → Option (List Instr)
  | .pushRdi :: rest => (untilJump rest).map (.push (.reg .rdi) :: ·)
  | .movRdi vector :: rest => (untilJump rest).map (.mov .rdi (.ofNat 64 vector) :: ·)
  | .jmpHandleInterrupt :: _ => some []
  | _ => none

/-- An interrupt from its vector to `call handle_interrupt`: the gate is read from memory, and
what runs is what the assembler has put at its offset. -/
def dispatch (size : Nat → Line → Nat) (loc : Nat) (idtr : Idtr) (ists : Nat → Word) (n : Nat)
    (s : Machine) : Option Machine := do
  let gate ← readGate idtr s.memory n
  let s ← interrupt mapped gate ists s
  let code ← untilJump (locate size s.rip.toNat interruptS loc)
  let s ← execAll mapped code s
  execAll mapped (saves.map .push) s

structure Descriptor.Packed (d : Descriptor) : Prop where
  baseLow : d.baseLow < 2 ^ 16
  selector : d.selector < 2 ^ 16
  reserved0 : d.reserved0 < 2 ^ 8
  flags : d.flags < 2 ^ 8
  baseMid : d.baseMid < 2 ^ 16
  baseHigh : d.baseHigh < 2 ^ 32

theorem setupIDT_packed (handleInterrupt0 n : Nat) :
    Descriptor.Packed (InterruptEntry.setupIDT handleInterrupt0 n) := by
  constructor
  · exact Nat.mod_lt _ (by decide)
  · exact (by decide : 0x08 < 2 ^ 16)
  · exact (by decide : 0 < 2 ^ 8)
  · exact (by decide : 0x8E < 2 ^ 8)
  · exact Nat.mod_lt _ (by decide)
  · exact Nat.mod_lt _ (by decide)

theorem setupIDT_interruptGate (handleInterrupt0 n : Nat) :
    InterruptGate (InterruptEntry.setupIDT handleInterrupt0 n).flags := by
  have flags : (InterruptEntry.setupIDT handleInterrupt0 n).flags = 0x8E := rfl
  rw [flags]
  decide

theorem readGate_entry (packed : Descriptor.Packed d) (idtr : Idtr)
    (inside : 16 * n + 15 ≤ idtr.limit)
    (gate : InterruptGate d.flags)
    (held : Holds m (idtr.base + 16 * n) (Descriptor.bytes d)) :
    readGate idtr m n = some d.gate := by
  simp only [Descriptor.bytes,holds_append,encode_length,Nat.add_assoc] at held
  obtain ⟨baseLow,selector,reserved0,flags,baseMid,baseHigh,-⟩ := held
  have baseLow := (load_encode baseLow).trans (Nat.mod_eq_of_lt packed.baseLow)
  have selector := (load_encode selector).trans (Nat.mod_eq_of_lt packed.selector)
  have reserved0 := (load_encode reserved0).trans (Nat.mod_eq_of_lt packed.reserved0)
  have flags := (load_encode flags).trans (Nat.mod_eq_of_lt packed.flags)
  have baseMid := (load_encode baseMid).trans (Nat.mod_eq_of_lt packed.baseMid)
  have baseHigh := (load_encode baseHigh).trans (Nat.mod_eq_of_lt packed.baseHigh)
  simp only [readGate,sizeofDescriptor,Nat.add_assoc,baseLow,selector,reserved0,flags,baseMid,
    baseHigh,inside,gate,and_self,↓reduceIte,Descriptor.gate]

theorem setupIDT_offset (handleInterrupt0 n : Nat) (low : handleInterrupt0 + 32 * n < 2 ^ 32) :
    Descriptor.offset (InterruptEntry.setupIDT handleInterrupt0 n) =
      handleInterrupt0 + 32 * n := by
  simp only [Descriptor.offset,InterruptEntry.setupIDT,InterruptEntry.setIDT]
  omega

theorem setupIDT_holds (held : Holds m address (Tables.bytes t)) (vector : n < 256) :
    Holds m (address + 16 * n) (Descriptor.bytes (t.idt n)) := by
  rw [Tables.bytes,List.range_eq_range'] at held
  exact holds_blocks (fun i => Descriptor.bytes_length (t.idt i)) held (Nat.zero_le n)
    (by rw [arraylen]; omega)

/-- What is dispatched through the table in memory is what the stub of the vector does. -/
theorem dispatch_enter (assembles : Assembles size)
    (located : symbol size 0 interruptS loc = some handleInterrupt0)
    (low : handleInterrupt0 + 256 * 32 ≤ 2 ^ 32) (vector : n < 256) (idt : UInt32) (t : Tables)
    (ists : Nat → Word) (s : Machine)
    (held : Holds s.memory idt.toNat (Tables.bytes (setupIDT idt handleInterrupt0 t))) :
    dispatch size loc (setupIDT idt handleInterrupt0 t).idtr ists n s =
      enter handleInterrupt0 ists n s := by
  have entry := setupIDT_holds held vector
  rw [setupIDT_entry idt handleInterrupt0 t n vector] at entry
  have limit : 16 * n + 15 ≤ sizeofDescriptor * arraylen - 1 := by
    rw [sizeofDescriptor,arraylen]
    omega
  have read := readGate_entry (setupIDT_packed handleInterrupt0 n) ⟨_, idt.toNat⟩ limit
    (setupIDT_interruptGate handleInterrupt0 n) entry
  obtain ⟨rest,code⟩ := (placed_interruptS assembles located n vector).code
  rw [dispatch,enter,setupIDT_idtr,read,Option.bind_eq_bind,Option.bind_some]
  cases delivered : interrupt mapped (InterruptEntry.setupIDT handleInterrupt0 n).gate ists s with
  | none => rfl
  | some t =>
    have rip : t.rip.toNat = handleInterrupt0 + 32 * n := by
      rw [interrupt_gate] at delivered
      obtain ⟨_,-,rfl⟩ := Option.map_eq_some_iff.mp delivered
      have offset := setupIDT_offset handleInterrupt0 n (by omega)
      rw [Descriptor.offset] at offset
      rw [Descriptor.gate,offset,BitVec.toNat_ofNat,Nat.mod_eq_of_lt (by omega)]
    have stubbed : untilJump (locate size t.rip.toNat interruptS loc) = some (stub n) := by
      rw [rip,code]
      rfl
    rw [Option.bind_eq_bind,Option.bind_some,stubbed]
    rfl

/-- After `setup_IDT` every vector leads to its stub. The entry holds the address where the
assembler has put the label, as a present interrupt gate with the code selector and nothing in
the reserved members; the processor finds exactly the table under IDTR; and an interrupt goes
through it to the call of `handle_interrupt` with the vector. -/
theorem idt_dispatches (size : Nat → Line → Nat) (assembles : Assembles size)
    (loc handleInterrupt0 : Nat) (located : symbol size 0 interruptS loc = some handleInterrupt0)
    (low : handleInterrupt0 + 256 * 32 ≤ 2 ^ 32) (idt : UInt32) (before : Tables) (n : Nat)
    (vector : n < 256) :
    let t := setupIDT idt handleInterrupt0 before
    symbol size n interruptS loc = some (Descriptor.offset (t.idt n)) ∧
      Descriptor.offset (t.idt n) = handleInterrupt0 + 32 * n ∧
      InterruptGate (t.idt n).flags ∧ (t.idt n).selector = 0x08 ∧
      (t.idt n).reserved0 = 0 ∧ (t.idt n).reserved1 = 0 ∧
      t.idtr.base = idt.toNat ∧ t.idtr.limit + 1 = (Tables.bytes t).length ∧
      ∀ ists s, Holds s.memory idt.toNat (Tables.bytes t) →
        dispatch size loc t.idtr ists n s = enter handleInterrupt0 ists n s ∧
        ∀ called, dispatch size loc t.idtr ists n s = some called →
          called.regs .rdi = .ofNat 64 n := by
  intro t
  have entry : t.idt n = InterruptEntry.setupIDT handleInterrupt0 n :=
    setupIDT_entry idt handleInterrupt0 before n vector
  have idtr : t.idtr = ⟨sizeofDescriptor * arraylen - 1, idt.toNat⟩ :=
    setupIDT_idtr idt handleInterrupt0 before
  have offset : Descriptor.offset (t.idt n) = handleInterrupt0 + 32 * n := by
    rw [entry]
    exact setupIDT_offset handleInterrupt0 n (by omega)
  refine ⟨?_,offset,?_,by rw [entry]; rfl,by rw [entry]; rfl,by rw [entry]; rfl,by rw [idtr],?_,?_⟩
  · rw [offset]
    exact (placed_interruptS assembles located n vector).label
  · rw [entry]
    exact setupIDT_interruptGate handleInterrupt0 n
  · rw [idtr,Tables.bytes_length]
    rfl
  · intro ists s held
    have same := dispatch_enter assembles located low vector idt before ists s held
    refine ⟨same,fun called reached => ?_⟩
    rw [same] at reached
    exact (enter_spec reached).argument

/-- The bytes of a `push rdi`, a `mov` of 32 bits and a jump of 32 bits. -/
def encodedSize (_ : Nat) : Line → Nat
  | .movRdi _ => 7
  | .jmpHandleInterrupt => 5
  | _ => 1

theorem encodedSize_assembles : Assembles encodedSize where
  bytes _ line := by cases line <;> simp [encodedSize]
  stub loc n := by simp [stubEnd,encodedSize]

def sampleTables : Tables :=
  setupIDT 0x102000 0x101020 ⟨fun _ => ⟨0, 0, 0, 0, 0, 0, 0⟩, ⟨0, 0⟩⟩

def sampleMachine : Machine :=
  { interrupted with memory := image 0x102000 (Tables.bytes sampleTables) }

/-- The keyboard's vector, with the stubs behind 20 bytes of other code. -/
theorem keyboard_dispatches :
    symbol encodedSize 33 interruptS 0x101014 = some 0x101440 ∧
      ∃ called, dispatch encodedSize 0x101014 sampleTables.idtr (fun _ => 0) 33 sampleMachine =
        some called ∧ called.regs .rdi = 33 := by
  have located : symbol encodedSize 0 interruptS 0x101014 = some 0x101020 := rfl
  obtain ⟨label,offset,-,-,-,-,-,-,dispatched⟩ := idt_dispatches encodedSize
    encodedSize_assembles 0x101014 0x101020 located (by decide) 0x102000
    ⟨fun _ => ⟨0, 0, 0, 0, 0, 0, 0⟩, ⟨0, 0⟩⟩ 33 (by decide)
  obtain ⟨same,argument⟩ := dispatched (fun _ => 0) sampleMachine (image_holds _ _)
  obtain ⟨called,entered⟩ :=
    enter_defined 0x101020 (fun _ => 0) 33 sampleMachine (by decide) (by decide)
  exact ⟨label.trans (congrArg some offset),called,same.trans entered,
    argument called (same.trans entered)⟩

end LuaKernel.IdtSetup
