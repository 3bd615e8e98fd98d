import Mathlib.Algebra.Group.Nat.Defs
import Mathlib.Order.Nat
import LuaKernel.Bytes

/-! A fragment of the x86-64 processor: the stack, the registers kept on it, and the delivery of
an interrupt through a gate. Addresses below `limit` are mapped; a push or a pop elsewhere is a
fault, which is `none` throughout. -/
namespace LuaKernel.X86

open Bytes

abbrev Word := BitVec 64
abbrev Selector := BitVec 16

inductive Reg
  | rax | rbx | rcx | rdx | rsi | rdi | rbp | r8 | r9 | r10 | r11 | r12 | r13 | r14 | r15
  deriving DecidableEq

inductive Seg
  | fs | gs
  deriving DecidableEq

structure Registers where
  rip : Word
  cs : Selector
  rflags : Word
  rsp : Word
  ss : Selector
  regs : Reg → Word
  segs : Seg → Selector

structure Machine extends Registers where
  memory : Memory

inductive Slot
  | reg (r : Reg)
  | seg (s : Seg)
  deriving DecidableEq

def Slot.value (s : Machine) : Slot → Nat
  | .reg r => (s.regs r).toNat
  | .seg x => (s.segs x).toNat

def Slot.set (value : Nat) (s : Machine) : Slot → Machine
  | .reg r => { s with regs := Function.update s.regs r (.ofNat 64 value) }
  | .seg x => { s with segs := Function.update s.segs x (.ofNat 16 value) }

def store (m : Memory) (address : Nat) (bytes : List UInt8) : Memory :=
  fun a => if address ≤ a ∧ a < address + bytes.length then bytes.getD (a - address) 0 else m a

inductive Instr
  | push (slot : Slot)
  | pop (slot : Slot)
  | mov (r : Reg) (value : Word)

/-- An interrupt gate; `ist` selects a stack of the task state segment, 0 is none. -/
structure Gate where
  base : Word
  selector : Selector
  ist : Nat

/-- The flags IF, TF, NT, RF and VM are cleared on the way through an interrupt gate. -/
def maskFlags (rflags : Word) : Word := rflags &&& ~~~0x34300#64

def alignDown (rsp : Word) : Word := .ofNat 64 (rsp.toNat / 16 * 16)

section

variable (limit : Nat)

def push (value : Nat) (s : Machine) : Option Machine :=
  if 8 ≤ s.rsp.toNat ∧ s.rsp.toNat ≤ limit then
    some { s with
      rsp := .ofNat 64 (s.rsp.toNat - 8)
      memory := store s.memory (s.rsp.toNat - 8) (encode value 8) }
  else none

def pop (s : Machine) : Option (Nat × Machine) :=
  if s.rsp.toNat + 8 ≤ limit then
    some (load s.memory s.rsp.toNat 8, { s with rsp := .ofNat 64 (s.rsp.toNat + 8) })
  else none

def exec (s : Machine) : Instr → Option Machine
  | .push slot => push limit (slot.value s) s
  | .pop slot => (pop limit s).map fun (value, s) => slot.set value s
  | .mov r value => some { s with regs := Function.update s.regs r value }

def execAll (code : List Instr) (s : Machine) : Option Machine := code.foldlM (exec limit) s

def pushAll (values : List Nat) (s : Machine) : Option Machine :=
  values.foldlM (fun s value => push limit value s) s

/-- What the processor saves of the interrupted code, in the order it is pushed. -/
def interruptFrame (s : Registers) : List Nat :=
  [s.ss.toNat, s.rsp.toNat, s.rflags.toNat, s.cs.toNat, s.rip.toNat]

/-- The delivery of an interrupt without an error code; `ists` are the stacks of the task
state segment. -/
def interrupt (gate : Gate) (ists : Nat → Word) (s : Machine) : Option Machine :=
  let top := if gate.ist = 0 then s.rsp else ists gate.ist
  (pushAll limit (interruptFrame s.toRegisters) { s with rsp := alignDown top }).map fun t =>
    { t with rip := gate.base, cs := gate.selector, rflags := maskFlags s.rflags }

def iretq (s : Machine) : Option Machine := do
  let (rip, s) ← pop limit s
  let (cs, s) ← pop limit s
  let (rflags, s) ← pop limit s
  let (rsp, s) ← pop limit s
  let (ss, s) ← pop limit s
  return { s with
    rip := .ofNat 64 rip
    cs := .ofNat 16 cs
    rflags := .ofNat 64 rflags
    rsp := .ofNat 64 rsp
    ss := .ofNat 16 ss }

end

def Stacked (s : Machine) (words : List Nat) : Prop :=
  Holds s.memory s.rsp.toNat (words.flatMap (encode · 8))

theorem store_holds (m : Memory) (address : Nat) (bytes : List UInt8) :
    Holds (store m address bytes) address bytes := by
  intro i bound
  simp [store,bound]

theorem store_above (m : Memory) (bytes : List UInt8) (above : address + bytes.length ≤ a) :
    store m address bytes a = m a := by
  simp only [store]
  rw [if_neg (by omega)]

theorem holds_same (held : Holds m address bytes)
    (same : ∀ a, address ≤ a → a < address + bytes.length → m' a = m a) :
    Holds m' address bytes := by
  intro i bound
  rw [same (address + i) (by omega) (by omega)]
  exact held i bound

variable {limit : Nat}

theorem push_spec (done : push limit value s = some t) :
    t.rsp.toNat + 8 = s.rsp.toNat ∧ t.toRegisters = { s.toRegisters with rsp := t.rsp } ∧
      (∀ a, s.rsp.toNat ≤ a → t.memory a = s.memory a) ∧
      ∀ words, Stacked s words → Stacked t (value :: words) := by
  unfold push at done
  split_ifs at done with room
  obtain rfl := Option.some.inj done
  have rsp : (BitVec.ofNat 64 (s.rsp.toNat - 8)).toNat = s.rsp.toNat - 8 := by
    have := s.rsp.isLt
    simp
    omega
  have above (a : Nat) (le : s.rsp.toNat ≤ a) :
      store s.memory (s.rsp.toNat - 8) (encode value 8) a = s.memory a :=
    store_above _ _ (by simp; omega)
  refine ⟨by simp only [rsp]; omega,rfl,above,fun words stacked => ?_⟩
  simp only [Stacked,rsp,List.flatMap_cons]
  refine holds_append.mpr ⟨store_holds _ _ _,?_⟩
  rw [encode_length,Nat.sub_add_cancel room.1]
  exact holds_same stacked fun a le _ => above a le

theorem push_mapped (done : push limit value s = some t) : s.rsp.toNat ≤ limit := by
  unfold push at done
  split_ifs at done with room
  exact room.2

theorem push_defined (limit value : Nat) (s : Machine) (room : 8 ≤ s.rsp.toNat)
    (mapped : s.rsp.toNat ≤ limit) : ∃ t, push limit value s = some t := ⟨_,if_pos ⟨room,mapped⟩⟩

/-- A value more on the stack, the registers kept. -/
theorem pushAll_spec (values : List Nat) (done : pushAll limit values s = some t) :
    t.rsp.toNat + 8 * values.length = s.rsp.toNat ∧
      t.toRegisters = { s.toRegisters with rsp := t.rsp } ∧
      (∀ a, s.rsp.toNat ≤ a → t.memory a = s.memory a) ∧
      ∀ words, Stacked s words → Stacked t (values.reverse ++ words) := by
  induction values generalizing s with
  | nil =>
    obtain rfl : s = t := by simpa [pushAll] using done
    exact ⟨rfl,rfl,fun _ _ => rfl,fun _ stacked => stacked⟩
  | cons value rest ih =>
    obtain ⟨middle,first,later⟩ := Option.bind_eq_some_iff.mp done
    obtain ⟨rsp,registers,above,stacked⟩ := push_spec first
    obtain ⟨rsp',registers',above',stacked'⟩ := ih later
    refine ⟨?_,?_,fun a le => ?_,fun words here => ?_⟩
    · rw [List.length_cons]
      omega
    · rw [registers',registers]
    · rw [above' a (by omega),above a le]
    · simpa using stacked' _ (stacked words here)

theorem pushAll_defined (limit : Nat) (values : List Nat) (s : Machine)
    (room : 8 * values.length ≤ s.rsp.toNat) (mapped : s.rsp.toNat ≤ limit) :
    ∃ t, pushAll limit values s = some t := by
  induction values generalizing s with
  | nil => exact ⟨s,rfl⟩
  | cons value rest ih =>
    rw [List.length_cons] at room
    obtain ⟨middle,first⟩ := push_defined limit value s (by omega) mapped
    obtain ⟨rsp,-⟩ := push_spec first
    obtain ⟨t,later⟩ := ih middle (by omega) (by omega)
    exact ⟨t,Option.bind_eq_some_iff.mpr ⟨middle,first,later⟩⟩

theorem Slot.value_congr (registers : t.toRegisters = { s.toRegisters with rsp := rsp })
    (slot : Slot) : slot.value t = slot.value s := by
  cases slot with
  | reg r => exact congrArg (fun registers => (registers.regs r).toNat) registers
  | seg x => exact congrArg (fun registers => (registers.segs x).toNat) registers

/-- Pushing registers is pushing the values they have at the start. -/
theorem execAll_push (slots : List Slot) (s : Machine) :
    execAll limit (slots.map .push) s = pushAll limit (slots.map (Slot.value s)) s := by
  induction slots generalizing s with
  | nil => rfl
  | cons slot rest ih =>
    simp only [execAll,pushAll,List.map_cons,List.foldlM_cons,exec] at ih ⊢
    cases first : push limit (slot.value s) s with
    | none => rfl
    | some middle =>
      have same : rest.map (Slot.value middle) = rest.map (Slot.value s) :=
        List.map_congr_left fun slot _ => Slot.value_congr (push_spec first).2.1 slot
      have later := ih middle
      rw [same] at later
      exact later

theorem pop_spec (stacked : Stacked s (word :: words)) (fits : word < 2 ^ 64)
    (mapped : s.rsp.toNat + 8 ≤ limit) (small : limit < 2 ^ 64) :
    ∃ t, pop limit s = some (word, t) ∧ t.rsp.toNat = s.rsp.toNat + 8 ∧
      t.memory = s.memory ∧ t.toRegisters = { s.toRegisters with rsp := t.rsp } ∧
      Stacked t words := by
  obtain ⟨here,rest⟩ := holds_append.mp stacked
  have rsp : (BitVec.ofNat 64 (s.rsp.toNat + 8)).toNat = s.rsp.toNat + 8 := by
    simp
    omega
  refine ⟨{ s with rsp := .ofNat 64 (s.rsp.toNat + 8) },?_,rsp,rfl,rfl,?_⟩
  · rw [pop,if_pos mapped,load_u64 here fits]
  · rw [encode_length,← rsp] at rest
    exact rest

theorem Slot.value_lt (s : Machine) (slot : Slot) : slot.value s < 2 ^ 64 := by
  cases slot with
  | reg r => exact (s.regs r).isLt
  | seg x => exact Nat.lt_trans (s.segs x).isLt (by decide)

/-- A slot given the value it has in `original`. -/
theorem Slot.value_set (original s : Machine) (slot other : Slot)
    (same : other = slot ∨ other.value s = other.value original) :
    other.value (slot.set (slot.value original) s) = other.value original := by
  cases slot with
  | reg r =>
    cases other with
    | seg => simpa [Slot.value,Slot.set] using same
    | reg r' =>
      by_cases equal : r' = r
      · subst equal
        simp [Slot.value,Slot.set]
      · have kept : Slot.value s (.reg r') = Slot.value original (.reg r') := by
          simpa [equal] using same
        simpa [Slot.value,Slot.set,equal] using kept
  | seg x =>
    cases other with
    | reg => simpa [Slot.value,Slot.set] using same
    | seg x' =>
      by_cases equal : x' = x
      · subst equal
        simp [Slot.value,Slot.set]
      · have kept : Slot.value s (.seg x') = Slot.value original (.seg x') := by
          simpa [equal] using same
        simpa [Slot.value,Slot.set,equal] using kept

@[simp] theorem Slot.set_rsp (value : Nat) (s : Machine) (slot : Slot) :
    (slot.set value s).rsp = s.rsp := by cases slot <;> rfl

@[simp] theorem Slot.set_memory (value : Nat) (s : Machine) (slot : Slot) :
    (slot.set value s).memory = s.memory := by cases slot <;> rfl

/-- The slots whose values in `original` lie on the stack get them back, and those that have
them keep them. -/
theorem execAll_pop (slots : List Slot) (original : Machine) (small : limit < 2 ^ 64)
    (stacked : Stacked s (slots.map (Slot.value original) ++ words))
    (mapped : s.rsp.toNat + 8 * slots.length ≤ limit) :
    ∃ t, execAll limit (slots.map .pop) s = some t ∧
      t.rsp.toNat = s.rsp.toNat + 8 * slots.length ∧ t.memory = s.memory ∧ Stacked t words ∧
      ∀ slot, slot ∈ slots ∨ slot.value s = slot.value original →
        slot.value t = slot.value original := by
  induction slots generalizing s with
  | nil => exact ⟨s,rfl,rfl,rfl,stacked,fun slot same => by simpa using same⟩
  | cons slot rest ih =>
    rw [List.length_cons] at mapped
    obtain ⟨popped,done,rsp,memory,registers,stacked'⟩ :=
      pop_spec stacked (slot.value_lt original) (by omega) small
    have next : Stacked (slot.set (slot.value original) popped)
        (rest.map (Slot.value original) ++ words) := by simpa [Stacked] using stacked'
    obtain ⟨t,later,rsp',memory',ended,values⟩ := ih next (by simp; omega)
    refine ⟨t,?_,?_,by simp [memory',memory],ended,fun other same => values other ?_⟩
    · have first : exec limit s (.pop slot) = some (slot.set (slot.value original) popped) := by
        simp [exec,done]
      simp only [execAll,List.map_cons,List.foldlM_cons,first] at later ⊢
      exact later
    · simp only [Slot.set_rsp] at rsp'
      rw [List.length_cons]
      omega
    · rcases same with member | kept
      · rcases List.mem_cons.mp member with rfl | member
        · exact Or.inr (Slot.value_set original popped other other (Or.inl rfl))
        · exact Or.inl member
      · rw [← Slot.value_congr registers other] at kept
        exact Or.inr (Slot.value_set original popped slot other (Or.inr kept))

theorem iretq_spec (original : Registers) (small : limit < 2 ^ 64)
    (stacked : Stacked s ((interruptFrame original).reverse ++ words))
    (mapped : s.rsp.toNat + 40 ≤ limit) :
    iretq limit s = some
      { s with
        rip := original.rip
        cs := original.cs
        rflags := original.rflags
        rsp := original.rsp
        ss := original.ss } := by
  have selector (x : Selector) : x.toNat < 2 ^ 64 := Nat.lt_trans x.isLt (by decide)
  obtain ⟨a,first,rspA,memoryA,registersA,stackedA⟩ :=
    pop_spec stacked original.rip.isLt (by omega) small
  obtain ⟨b,second,rspB,memoryB,registersB,stackedB⟩ :=
    pop_spec stackedA (selector original.cs) (by omega) small
  obtain ⟨c,third,rspC,memoryC,registersC,stackedC⟩ :=
    pop_spec stackedB original.rflags.isLt (by omega) small
  obtain ⟨d,fourth,rspD,memoryD,registersD,stackedD⟩ :=
    pop_spec stackedC original.rsp.isLt (by omega) small
  obtain ⟨e,fifth,-,memoryE,registersE,-⟩ :=
    pop_spec stackedD (selector original.ss) (by omega) small
  have memory : e.memory = s.memory := by rw [memoryE,memoryD,memoryC,memoryB,memoryA]
  have registers : e.toRegisters = { s.toRegisters with rsp := e.rsp } := by
    rw [registersE,registersD,registersC,registersB,registersA]
  have regs : e.regs = s.regs := by rw [registers]
  have segs : e.segs = s.segs := by rw [registers]
  simp [iretq,first,second,third,fourth,fifth,regs,segs,memory]

end LuaKernel.X86
