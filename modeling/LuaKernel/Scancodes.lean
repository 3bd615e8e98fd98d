import LuaKernel.InterruptEntry
import LuaKernel.Interrupts

/-! The value that the keyboard interrupt queues. `inb` writes AL and nothing else of RAX, while
its prototype returns a `u32`; nothing on the way from the interrupted code clears RAX. So the
value has the byte of the port below, and above it what RAX held at the call. -/
namespace LuaKernel.Scancodes

open X86 InterruptEntry Runs
open Keyboard (State Label boot handleKeyboard goto wake pending capacity)

abbrev Ports := Nat → UInt8

def setAl (rax : Word) (byte : UInt8) : Word := .ofNat 64 (rax.toNat / 2 ^ 8 * 2 ^ 8 + byte.toNat)

def inb (ports : Ports) (s : Machine) : Machine :=
  let s := { s with regs := Function.update s.regs .rdx (s.regs .rdi) }
  let port := (s.regs .rdx).toNat % 2 ^ 16
  { s with regs := Function.update s.regs .rax (setAl (s.regs .rax) (ports port)) }

/-- What C takes for the result of `inb(addr)` called in state `s`: EAX. -/
def callInb (ports : Ports) (addr : UInt32) (s : Machine) : UInt32 :=
  let s := { s with regs := Function.update s.regs .rdi (.ofNat 64 addr.toNat) }
  .ofNat ((inb ports s).regs .rax).toNat

/-- A keyboard interrupt, with the machine at the call of `inb`; or anything else. -/
inductive Event
  | key (called : Machine) (ports : Ports)
  | code (label : Label)

def step (s : State) : Event → Option State
  | .key called ports => Keyboard.step s (.interrupt (callInb ports 0x60 called))
  | .code (.interrupt _) => none
  | .code label => Keyboard.step s label

/-- The scancode queued is the byte of the port; all that are queued or handed to Lua are
bytes. -/
def Faithful (s : State) (event : Event) : Prop :=
  ∀ next, step s event = some next →
    (∀ called ports, event = .key called ports → s.len < capacity →
      pending next = pending s ++ [(ports 0x60).toUInt32]) ∧
    (∀ scancode ∈ pending next, scancode.toNat < 256) ∧
    ∀ table, event = .code (.ret table) → ∀ scancode ∈ table, scancode.toNat < 256

/-- At the call of `inb` for a scancode that is queued, EAX is zero above AL. -/
def Clear (s : State) : Event → Prop
  | .key called _ => s.interruptFlag = true → s.len < capacity →
      (called.regs .rax).toNat % 2 ^ 32 < 256
  | .code _ => True

structure Bytes (s : State) : Prop where
  queued : ∀ scancode ∈ pending s, scancode.toNat < 256
  copied : ∀ scancode ∈ s.table, scancode.toNat < 256

theorem callInb_toNat (ports : Ports) (called : Machine) :
    (callInb ports 0x60 called).toNat =
      (called.regs .rax).toNat % 2 ^ 32 / 2 ^ 8 * 2 ^ 8 + (ports 0x60).toNat := by
  have byte := (ports 0x60).toNat_lt
  have rax := (called.regs .rax).isLt
  have port : (BitVec.ofNat 64 (0x60 : UInt32).toNat).toNat % 2 ^ 16 = 0x60 := by decide
  simp only [callInb,inb,setAl,Function.update_self,port]
  simp
  omega

/-- The upper bytes of EAX are those of the value. -/
theorem callInb_byte (ports : Ports) (called : Machine) :
    callInb ports 0x60 called = (ports 0x60).toUInt32 ↔
      (called.regs .rax).toNat % 2 ^ 32 < 256 := by
  rw [← UInt32.toNat_inj,callInb_toNat,UInt8.toNat_toUInt32]
  omega

theorem key_pending (s : State) (scancode : UInt32) :
    pending (handleKeyboard scancode (goto s (wake s.place))) =
      if s.len < capacity then pending s ++ [scancode] else pending s := by
  have queued := Keyboard.pending_handle scancode (goto s (wake s.place))
  have same : pending (goto s (wake s.place)) = pending s := rfl
  have length : (pending s).length = s.len := by simp [pending]
  rwa [same,length] at queued

theorem step_key (moved : step s (.key called ports) = some next) :
    s.interruptFlag = true ∧
      next = handleKeyboard (callInb ports 0x60 called) (goto s (wake s.place)) := by
  obtain ⟨on,same⟩ := Keyboard.guarded moved
  exact ⟨on,same.symm⟩

theorem step_code (moved : step s (.code label) = some next) :
    Keyboard.Moves s label next ∧ ∀ scancode, label ≠ .interrupt scancode := by
  cases label with
  | interrupt => contradiction
  | _ => exact ⟨Keyboard.step_moves s next moved,nofun⟩

theorem code_pending (moved : step s (.code label) = some next) :
    pending next = pending s ∨ pending next = [] := by
  obtain ⟨moves,other⟩ := step_code moved
  cases moves with
  | interrupt _ scancode => exact absurd rfl (other scancode)
  | clear => exact Or.inr rfl
  | _ => exact Or.inl rfl

theorem rawseti_mem (member : v ∈ Keyboard.rawseti table n value) : v ∈ table ∨ v = value := by
  unfold Keyboard.rawseti at member
  split at member
  · simpa using member
  · exact List.mem_or_eq_of_mem_set member

/-- The table of a call is copied from the queue. -/
theorem step_table (bytes : Bytes s) (moved : step s event = some next) :
    ∀ scancode ∈ next.table, scancode.toNat < 256 := by
  cases event with
  | key called ports =>
    obtain ⟨-,rfl⟩ := step_key moved
    rw [(Keyboard.handleKeyboard_frame _ _).2.1]
    exact bytes.copied
  | code label =>
    obtain ⟨moves,other⟩ := step_code moved
    cases moves with
    | interrupt _ scancode => exact absurd rfl (other scancode)
    | create => exact nofun
    | push _ more =>
      intro scancode member
      rcases rawseti_mem member with old | rfl
      · exact bytes.copied scancode old
      · exact bytes.queued _ (List.mem_map_of_mem (List.mem_range.mpr more))
    | _ => exact bytes.copied

theorem faithful_iff (s : State) (event : Event) (bytes : Bytes s) :
    Faithful s event ↔ Clear s event := by
  cases event with
  | key called ports =>
    constructor
    · intro faithful on room
      have moved : step s (.key called ports) =
          some (handleKeyboard (callInb ports 0x60 called) (goto s (wake s.place))) := if_pos on
      have appended := (faithful _ moved).1 called ports rfl room
      rw [key_pending,if_pos room] at appended
      exact (callInb_byte ports called).mp (by simpa using appended)
    · intro clear next moved
      obtain ⟨on,rfl⟩ := step_key moved
      rw [key_pending]
      by_cases room : s.len < capacity
      · have byte := (callInb_byte ports called).mpr (clear on room)
        rw [if_pos room,byte]
        refine ⟨?_,fun scancode member => ?_,nofun⟩
        · rintro _ _ ⟨⟩ -
          rfl
        · rcases List.mem_append.mp member with old | new
          · exact bytes.queued scancode old
          · rw [List.mem_singleton.mp new,UInt8.toNat_toUInt32]
            exact (ports 0x60).toNat_lt
      · rw [if_neg room]
        exact ⟨fun _ _ _ inside => absurd inside room,bytes.queued,nofun⟩
  | code label =>
    refine iff_of_true (fun next moved => ⟨nofun,?_,?_⟩) trivial
    · rcases code_pending moved with same | empty
      · rw [same]
        exact bytes.queued
      · rw [empty]
        exact nofun
    · rintro table ⟨⟩
      obtain ⟨⟨-,rfl⟩,-⟩ := Keyboard.guarded moved
      exact bytes.copied

theorem Faithful.bytes (faithful : Faithful s event) (bytes : Bytes s)
    (moved : step s event = some next) : Bytes next :=
  ⟨(faithful next moved).2.1,step_table bytes moved⟩

theorem boot_bytes (memory : Nat → UInt32) : Bytes (boot memory) := ⟨nofun,nofun⟩

/-- Along every run the scancodes are faithful exactly when EAX is zero above AL at each call
of `inb` whose result is queued. -/
theorem scancodes_faithful_iff (memory : Nat → UInt32) (events : List Event) :
    Along step Faithful (boot memory) events ↔ Along step Clear (boot memory) events :=
  along_iff faithful_iff (fun _ _ _ bytes faithful moved => faithful.bytes bytes moved)
    (boot_bytes memory) events

/-- The way from the interrupted code to the call of `handle_interrupt` changes no register but
RDI. -/
theorem enter_regs (entered : enter handleInterrupt0 ists n s = some called) :
    called.regs = Function.update s.regs .rdi (.ofNat 64 n) := by
  obtain ⟨pushed,_,saved,delivery,rfl,stubPush,third⟩ := enter_parts entered
  rw [execAll_push] at third
  obtain ⟨-,registersA,-⟩ := pushAll_spec _ delivery
  obtain ⟨-,registersB,-⟩ := push_spec stubPush
  obtain ⟨-,registersC,-⟩ := pushAll_spec _ third
  rw [registersC,registersB,registersA]

def busy : Machine := { interrupted with regs := fun _ => 0x12345678 }

/-- The key A while RAX holds 0x12345678, unchanged up to the call of `inb`. -/
theorem scancode_with_rax : ∃ called next, enter 0x101000 (fun _ => 0) 33 busy = some called ∧
    called.regs .rax = busy.regs .rax ∧
    step (boot fun _ => 0) (.key called fun _ => 0x1e) = some next ∧
    pending next = [0x1234561e] ∧
    ¬Along step Faithful (boot fun _ => 0) [.key called fun _ => 0x1e] := by
  obtain ⟨called,entered⟩ :=
    enter_defined 0x101000 (fun _ => 0) 33 busy (by decide) (by decide)
  have rax : called.regs .rax = busy.regs .rax := by
    rw [enter_regs entered]
    rfl
  have value : callInb (fun _ => 0x1e) 0x60 called = 0x1234561e := by
    rw [← UInt32.toNat_inj,callInb_toNat,rax]
    decide
  refine ⟨called,_,entered,rax,rfl,?_,?_⟩
  · rw [key_pending,value]
    rfl
  · rintro ⟨faithful,-⟩
    have clear := (faithful_iff _ _ (boot_bytes _)).mp faithful rfl (by decide)
    rw [rax] at clear
    exact absurd clear (by decide)

/-- The same key while RAX is small, and a call that hands it to Lua. -/
theorem small_rax_faithful : ∃ called, enter 0x101000 (fun _ => 0) 33 interrupted = some called ∧
    Along step Faithful (boot fun _ => 0)
      [.key called fun _ => 0x1e, .code .call, .code .cli, .code .create, .code .push] := by
  obtain ⟨called,entered⟩ :=
    enter_defined 0x101000 (fun _ => 0) 33 interrupted (by decide) (by decide)
  have rax : called.regs .rax = 7 := by
    rw [enter_regs entered]
    rfl
  refine ⟨called,entered,(scancodes_faithful_iff _ _).mpr ⟨fun _ _ => ?_,fun _ _ => ?_⟩⟩
  · rw [rax]
    decide
  · refine along_of_forall (fun event member s => ?_) _
    cases event with
    | key => simp at member
    | code => trivial

end LuaKernel.Scancodes
