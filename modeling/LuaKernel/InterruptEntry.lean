import LuaKernel.X86

/-! The way of an interrupt through the IDT, the stub of its vector and `handle_interrupt_`, and
back. What is pushed is spread over the processor, the stub and the common routine; the pops
have to mirror all of it. -/
namespace LuaKernel.InterruptEntry

open Bytes X86

def mapped : Nat := 4 * 2 ^ 30

structure Descriptor where
  baseLow : Nat
  selector : Nat
  reserved0 : Nat
  flags : Nat
  baseMid : Nat
  baseHigh : Nat
  reserved1 : Nat

def setIDT (base selector flags : Nat) : Descriptor where
  baseLow := base % 2 ^ 16
  baseMid := base / 2 ^ 16 % 2 ^ 16
  baseHigh := base / 2 ^ 32 % 2 ^ 32
  selector := selector
  flags := flags
  reserved0 := 0
  reserved1 := 0

/-- The stubs lie 32 bytes apart from `handle_interrupt_0` on. -/
def setupIDT (handleInterrupt0 n : Nat) : Descriptor :=
  setIDT ((handleInterrupt0 + 32 * n) % 2 ^ 32) 0x08 0x8E

/-- A descriptor as the processor reads it; the stack index is in the low bits of
`reserved0`. -/
def Descriptor.gate (d : Descriptor) : Gate where
  base := .ofNat 64 (d.baseLow + 2 ^ 16 * d.baseMid + 2 ^ 32 * d.baseHigh)
  selector := .ofNat 16 d.selector
  ist := d.reserved0 % 8

def stub (n : Nat) : List Instr := [.push (.reg .rdi), .mov .rdi (.ofNat 64 n)]

def saves : List Slot :=
  [.reg .rax, .reg .rbx, .reg .rbp, .reg .rcx, .reg .rdx, .reg .rsi, .reg .r8, .reg .r9,
    .reg .r10, .reg .r11, .reg .r12, .reg .r13, .reg .r14, .reg .r15, .seg .fs, .seg .gs]

def restores : List Slot :=
  [.seg .gs, .seg .fs, .reg .r15, .reg .r14, .reg .r13, .reg .r12, .reg .r11, .reg .r10,
    .reg .r9, .reg .r8, .reg .rsi, .reg .rdx, .reg .rcx, .reg .rbp, .reg .rbx, .reg .rax,
    .reg .rdi]

/-- From the interrupted instruction to `call handle_interrupt`. -/
def enter (handleInterrupt0 : Nat) (ists : Nat → Word) (n : Nat) (s : Machine) :
    Option Machine := do
  let s ← interrupt mapped (setupIDT handleInterrupt0 n).gate ists s
  let s ← execAll mapped (stub n) s
  execAll mapped (saves.map .push) s

def leave (s : Machine) : Option Machine := do
  let s ← execAll mapped (restores.map .pop) s
  iretq mapped s

def frameSize : Nat := 176

/-- `handle_interrupt` has returned: RSP is where it was at the call, and the caller's frame is
as it was. What else it did to the registers does not matter here. -/
structure Returned (called returned : Machine) : Prop where
  rsp : returned.rsp = called.rsp
  frame : ∀ a, called.rsp.toNat ≤ a → a < called.rsp.toNat + frameSize →
    returned.memory a = called.memory a

def frame (s : Machine) : List Nat :=
  restores.map (Slot.value s) ++ (interruptFrame s.toRegisters).reverse

theorem every_slot (slot : Slot) : slot ∈ restores := by
  rcases slot with r | x
  · cases r <;> decide
  · cases x <;> decide

theorem alignDown_toNat (rsp : Word) : (alignDown rsp).toNat = rsp.toNat / 16 * 16 := by
  have := rsp.isLt
  simp [alignDown]
  omega

/-- The gates name no stack of their own, so the processor goes on with the one it is on. -/
theorem interrupt_gate (handleInterrupt0 n : Nat) (ists : Nat → Word) (s : Machine) :
    interrupt mapped (setupIDT handleInterrupt0 n).gate ists s =
      (pushAll mapped (interruptFrame s.toRegisters) { s with rsp := alignDown s.rsp }).map fun t =>
        { t with
          rip := (setupIDT handleInterrupt0 n).gate.base
          cs := (setupIDT handleInterrupt0 n).gate.selector
          rflags := maskFlags s.rflags } := by
  have own : (setupIDT handleInterrupt0 n).gate.ist = 0 := rfl
  simp only [interrupt,own,↓reduceIte]

structure Entered (n : Nat) (s called : Machine) : Prop where
  low : s.rsp.toNat / 16 * 16 ≤ mapped
  rsp : called.rsp.toNat + frameSize = s.rsp.toNat / 16 * 16
  argument : called.regs .rdi = .ofNat 64 n
  above : ∀ a, s.rsp.toNat / 16 * 16 ≤ a → called.memory a = s.memory a
  stacked : Stacked called (frame s)

/-- The three parts of the way in: the words of the processor, RDI, which the stub then uses for
the vector, and the other registers. -/
theorem enter_parts (entered : enter handleInterrupt0 ists n s = some called) :
    ∃ pushed delivered saved,
      pushAll mapped (interruptFrame s.toRegisters) { s with rsp := alignDown s.rsp } =
        some pushed ∧
      delivered = { pushed with
        rip := (setupIDT handleInterrupt0 n).gate.base
        cs := (setupIDT handleInterrupt0 n).gate.selector
        rflags := maskFlags s.rflags } ∧
      push mapped (Slot.value delivered (.reg .rdi)) delivered = some saved ∧
      execAll mapped (saves.map .push)
        { saved with regs := Function.update saved.regs .rdi (.ofNat 64 n) } = some called := by
  obtain ⟨delivered,first,more⟩ := Option.bind_eq_some_iff.mp entered
  obtain ⟨stubbed,second,third⟩ := Option.bind_eq_some_iff.mp more
  rw [interrupt_gate] at first
  obtain ⟨pushed,delivery,rfl⟩ := Option.map_eq_some_iff.mp first
  obtain ⟨saved,stubPush,mov⟩ := Option.bind_eq_some_iff.mp second
  obtain rfl : { saved with regs := Function.update saved.regs .rdi (.ofNat 64 n) } = stubbed := by
    simpa [exec] using mov
  exact ⟨pushed,_,saved,delivery,rfl,stubPush,third⟩

theorem enter_spec (entered : enter handleInterrupt0 ists n s = some called) :
    Entered n s called := by
  obtain ⟨pushed,_,saved,delivery,rfl,stubPush,third⟩ := enter_parts entered
  obtain ⟨rspA,registersA,aboveA,stackedA⟩ := pushAll_spec _ delivery
  obtain ⟨rspB,registersB,aboveB,stackedB⟩ := push_spec stubPush
  rw [execAll_push] at third
  obtain ⟨rspC,registersC,aboveC,stackedC⟩ := pushAll_spec _ third
  have regs : saved.regs = s.regs := by rw [registersB,registersA]
  have segs : saved.segs = s.segs := by rw [registersB,registersA]
  have values : saves.map (Slot.value
      { saved with regs := Function.update saved.regs .rdi (.ofNat 64 n) }) =
        saves.map (Slot.value s) := by simp [saves,Slot.value,regs,segs]
  have words : frame s = (saves.map (Slot.value s)).reverse ++
      Slot.value s (.reg .rdi) :: (interruptFrame s.toRegisters).reverse := by
    have mirror : restores = (Slot.reg .rdi :: saves).reverse := rfl
    simp [frame,mirror]
  simp only [alignDown_toNat] at rspA aboveA
  have lengthA : (interruptFrame s.toRegisters).length = 5 := rfl
  have lengthC : (saves.map (Slot.value s)).length = 16 := rfl
  rw [values] at stackedC rspC
  dsimp only at rspB rspC aboveB aboveC stackedB
  refine ⟨?_,?_,?_,fun a le => ?_,?_⟩
  · obtain ⟨_,word,-⟩ := Option.bind_eq_some_iff.mp delivery
    simpa only [alignDown_toNat] using push_mapped word
  · rw [frameSize]
    omega
  · rw [registersC]
    simp
  · rw [aboveC a (by omega),aboveB a (by omega)]
    exact aboveA a le
  · have bottom := stackedB _ (stackedA [] (holds_nil _ _))
    have all := stackedC _ bottom
    have rdi : pushed.regs .rdi = s.regs .rdi := by rw [registersA]
    rw [words]
    simpa [Slot.value,rdi] using all

/-- With room for the frame below RSP the call is reached. -/
theorem enter_defined (handleInterrupt0 : Nat) (ists : Nat → Word) (n : Nat) (s : Machine)
    (room : frameSize ≤ s.rsp.toNat / 16 * 16) (low : s.rsp.toNat / 16 * 16 ≤ mapped) :
    ∃ called, enter handleInterrupt0 ists n s = some called := by
  rw [frameSize] at room
  have lengthA : (interruptFrame s.toRegisters).length = 5 := rfl
  obtain ⟨pushed,delivery⟩ := pushAll_defined mapped (interruptFrame s.toRegisters)
    { s with rsp := alignDown s.rsp } (by rw [alignDown_toNat]; omega)
    (by rw [alignDown_toNat]; exact low)
  obtain ⟨rspA,-⟩ := pushAll_spec _ delivery
  rw [alignDown_toNat] at rspA
  obtain ⟨delivered,first,rsp⟩ : ∃ delivered, interrupt mapped
      (setupIDT handleInterrupt0 n).gate ists s = some delivered ∧ delivered.rsp = pushed.rsp := by
    rw [interrupt_gate,delivery]
    exact ⟨_,rfl,rfl⟩
  rw [← rsp] at rspA
  obtain ⟨saved,stubPush⟩ := push_defined mapped (Slot.value delivered (.reg .rdi)) delivered
    (by omega) (by omega)
  obtain ⟨rspB,-⟩ := push_spec stubPush
  have second : execAll mapped (stub n) delivered =
      some { saved with regs := Function.update saved.regs .rdi (.ofNat 64 n) } := by
    simp [execAll,stub,exec,stubPush]
  obtain ⟨called,third⟩ := pushAll_defined mapped (saves.map (Slot.value
      { saved with regs := Function.update saved.regs .rdi (.ofNat 64 n) }))
    { saved with regs := Function.update saved.regs .rdi (.ofNat 64 n) }
    (by simp [saves]; omega) (by dsimp only; omega)
  rw [← execAll_push] at third
  have entered := Option.bind_eq_some_iff.mpr ⟨_,second,third⟩
  exact ⟨called,Option.bind_eq_some_iff.mpr ⟨delivered,first,entered⟩⟩

/-- The frame is still there after the call, and the way out undoes the way in. -/
theorem leave_spec (entered : Entered n s called) (back : Returned called returned) :
    leave returned = some { s with memory := returned.memory } := by
  have size : ((frame s).flatMap (encode · 8)).length = frameSize := by
    simp [frame,restores,interruptFrame,frameSize]
  have stacked : Stacked returned (frame s) := by
    have held := entered.stacked
    rw [Stacked,← back.rsp] at held
    refine holds_same held fun a le lt => back.frame a (back.rsp ▸ le) ?_
    rwa [size,back.rsp] at lt
  have small : mapped < 2 ^ 64 := by decide
  have low := entered.low
  have room := entered.rsp
  rw [← back.rsp] at room
  have length : restores.length = 17 := rfl
  simp only [frameSize] at room
  obtain ⟨popped,pops,rsp,memory,rest,values⟩ :=
    execAll_pop restores s small stacked (by omega)
  rw [← List.append_nil (List.reverse _)] at rest
  have resumed := iretq_spec s.toRegisters small rest (by omega)
  have regs : popped.regs = s.regs := by
    funext r
    exact BitVec.eq_of_toNat_eq (values (.reg r) (Or.inl (every_slot _)))
  have segs : popped.segs = s.segs := by
    funext x
    exact BitVec.eq_of_toNat_eq (values (.seg x) (Or.inl (every_slot _)))
  simp [leave,pops,resumed,regs,segs,memory]

/-- Entry and exit are transparent: `handle_interrupt` is called with the vector and an aligned
stack, nothing at or above RSP is written on the way to it, and the way back resumes the
interrupted code with its registers, and the memory as `handle_interrupt` has left it. -/
theorem interrupt_transparent (handleInterrupt0 : Nat) (ists : Nat → Word) (n : Nat)
    (s called returned : Machine) (entered : enter handleInterrupt0 ists n s = some called)
    (back : Returned called returned) :
    called.regs .rdi = .ofNat 64 n ∧ called.rsp.toNat % 16 = 0 ∧
      (∀ a, s.rsp.toNat ≤ a → called.memory a = s.memory a) ∧
      leave returned = some { s with memory := returned.memory } := by
  have spec := enter_spec entered
  have rsp := spec.rsp
  refine ⟨spec.argument,by rw [frameSize] at rsp; omega,fun a le => spec.above a (by omega),?_⟩
  exact leave_spec spec back

/-- Code at 1 MiB with interrupts enabled, on a stack that is not aligned. -/
def interrupted : Machine where
  rip := 0x100000
  cs := 0x08
  rflags := 0x202
  rsp := 0x8008
  ss := 0
  regs _ := 7
  segs _ := 0
  memory _ := 0xff

theorem timer_transparent : ∃ called, enter 0x101000 (fun _ => 0) 32 interrupted = some called ∧
    leave called = some { interrupted with memory := called.memory } := by
  obtain ⟨called,entered⟩ :=
    enter_defined 0x101000 (fun _ => 0) 32 interrupted (by decide) (by decide)
  have back : Returned called called := ⟨rfl,fun _ _ _ => rfl⟩
  exact ⟨called,entered,(interrupt_transparent _ _ _ _ _ _ entered back).2.2.2⟩

end LuaKernel.InterruptEntry
