import LuaKernel.InterruptEntry

/-! The 128 bytes below RSP, which leaf functions may use without moving RSP. The gates name no
stack of their own, so the processor pushes its frame there, and the routine the registers. -/
namespace LuaKernel.InterruptEntry

open Bytes X86

def redZone : Nat := 128

/-- `handle_interrupt` has returned, and between its own frame and the interrupted RSP it has
written nothing. -/
structure ReturnedBelow (s called returned : Machine) : Prop where
  rsp : returned.rsp = called.rsp
  stack : ∀ a, called.rsp.toNat ≤ a → a < s.rsp.toNat → returned.memory a = called.memory a

def frameBytes (s : Machine) : List UInt8 := (frame s).flatMap (encode · 8)

def KeepsRedZone (s returned : Machine) : Prop :=
  ∃ final, leave returned = some final ∧
    ∀ a, s.rsp.toNat - redZone ≤ a → a < s.rsp.toNat → final.memory a = s.memory a

def HoldsFrame (s : Machine) : Prop :=
  ∀ a, s.rsp.toNat - redZone ≤ a → a < s.rsp.toNat / 16 * 16 →
    (frameBytes s)[a + frameSize - s.rsp.toNat / 16 * 16]? = some (s.memory a)

theorem ReturnedBelow.frame (back : ReturnedBelow s called returned)
    (entered : Entered n s called) : Returned called returned := by
  have rsp := entered.rsp
  exact ⟨back.rsp,fun a le lt => back.stack a le (by omega)⟩

theorem frameBytes_length (s : Machine) : (frameBytes s).length = frameSize := by
  simp [frameBytes,frame,restores,interruptFrame,frameSize]

theorem frame_byte (entered : Entered n s called) (le : called.rsp.toNat ≤ a)
    (lt : a < s.rsp.toNat / 16 * 16) :
    (frameBytes s)[a + frameSize - s.rsp.toNat / 16 * 16]? = some (called.memory a) := by
  have rsp := entered.rsp
  have index : a + frameSize - s.rsp.toNat / 16 * 16 = a - called.rsp.toNat := by omega
  have bound : a - called.rsp.toNat < (frameBytes s).length := by
    rw [frameBytes_length]
    omega
  have held := entered.stacked (a - called.rsp.toNat) bound
  rw [index,List.getElem?_eq_getElem bound]
  rw [Nat.add_sub_cancel' le] at held
  exact congrArg some held.symm

/-- The red zone survives an interrupt exactly when the frame that is pushed over it is what it
holds. -/
theorem keeps_red_zone_iff (handleInterrupt0 : Nat) (ists : Nat → Word) (n : Nat)
    (s called returned : Machine) (entered : enter handleInterrupt0 ists n s = some called)
    (back : ReturnedBelow s called returned) :
    KeepsRedZone s returned ↔ HoldsFrame s := by
  have spec := enter_spec entered
  have resumed := leave_spec spec (back.frame spec)
  have rsp := spec.rsp
  simp only [frameSize] at rsp
  constructor
  · rintro ⟨final,left,kept⟩ a low high
    obtain rfl := Option.some.inj (resumed.symm.trans left)
    rw [redZone] at low
    have below : called.rsp.toNat ≤ a := by omega
    rw [frame_byte spec below high,← back.stack a below (by omega),← kept a low (by omega)]
  · intro holds
    refine ⟨_,resumed,fun a low high => ?_⟩
    have low' := low
    rw [redZone] at low'
    have below : called.rsp.toNat ≤ a := by omega
    rw [back.stack a below high]
    by_cases frame : a < s.rsp.toNat / 16 * 16
    · have both := (frame_byte spec below frame).symm.trans (holds a low frame)
      exact Option.some.inj both
    · exact spec.above a (Nat.le_of_not_lt frame)

def prepared : Machine := { interrupted with memory := image 0x7f50 (frameBytes interrupted) }

theorem prepared_keeps_red_zone : ∃ called,
    enter 0x101000 (fun _ => 0) 32 prepared = some called ∧ KeepsRedZone prepared called := by
  obtain ⟨called,entered⟩ :=
    enter_defined 0x101000 (fun _ => 0) 32 prepared (by decide) (by decide)
  have back : ReturnedBelow prepared called called := ⟨rfl,fun _ _ _ => rfl⟩
  refine ⟨called,entered,(keeps_red_zone_iff _ _ _ _ _ _ entered back).mpr fun a low high => ?_⟩
  have rsp : prepared.rsp.toNat = 0x8008 := rfl
  rw [rsp] at low high ⊢
  rw [redZone] at low
  have bound : a - 0x7f50 < (frameBytes prepared).length := by
    rw [frameBytes_length,frameSize]
    omega
  have index : a + frameSize - 0x8008 / 16 * 16 = a - 0x7f50 := by
    rw [frameSize]
    omega
  have inside : 0x7f50 ≤ a := by omega
  have held := image_holds 0x7f50 (frameBytes interrupted) (a - 0x7f50) bound
  rw [Nat.add_sub_cancel' inside] at held
  rw [index,List.getElem?_eq_getElem bound]
  exact congrArg some held.symm

/-- The timer interrupt over a red zone of ones: SS, which is 0, is pushed over it. -/
theorem timer_overwrites_red_zone : ∃ called final,
    enter 0x101000 (fun _ => 0) 32 interrupted = some called ∧ leave called = some final ∧
      final.memory 0x7ff8 = 0 ∧ interrupted.memory 0x7ff8 = 0xff ∧
      ¬KeepsRedZone interrupted called := by
  obtain ⟨called,entered⟩ :=
    enter_defined 0x101000 (fun _ => 0) 32 interrupted (by decide) (by decide)
  have spec := enter_spec entered
  have back : ReturnedBelow interrupted called called := ⟨rfl,fun _ _ _ => rfl⟩
  have resumed := leave_spec spec (back.frame spec)
  have rsp : called.rsp.toNat + 176 = 0x8000 := spec.rsp
  have ss := frame_byte spec (a := 0x7ff8) (by omega) (by decide)
  have index : 0x7ff8 + frameSize - interrupted.rsp.toNat / 16 * 16 = 168 := by decide
  rw [index] at ss
  have zero : called.memory 0x7ff8 = 0 := by
    have first : (frameBytes interrupted)[168]? = some 0 := by decide +kernel
    exact Option.some.inj (ss.symm.trans first)
  refine ⟨called,_,entered,resumed,zero,rfl,?_⟩
  rintro ⟨final,left,kept⟩
  obtain rfl := Option.some.inj (resumed.symm.trans left)
  have ones : called.memory 0x7ff8 = 0xff := kept 0x7ff8 (by decide) (by decide)
  exact absurd (zero.symm.trans ones) (by decide)

end LuaKernel.InterruptEntry
