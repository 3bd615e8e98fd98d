import Mathlib.Order.Nat
import LuaKernel.Runs

/-! The keyboard as `key_pressed` reads it: the table of characters, the modifiers, and the
branch a scancode leads to. -/
namespace LuaKernel.Keys

open Runs

inductive Entry
  | number (n : Nat)
  | char (c : Char)
  | pair (plain shifted : Char)

def scancode2char : List Entry := [
  .number 27, .char '1', .char '2', .char '3', .char '4', .char '5', .char '6', .char '7',
  .pair '8' '*', .pair '9' '(', .pair '0' ')', .pair '-' '_', .pair '=' '+', .char '\x08',
  .char '\t',
  .char 'q', .char 'w', .char 'e', .char 'r',
  .char 't', .char 'y', .char 'u', .char 'i', .char 'o', .char 'p', .pair '[' '\x7b',
  .pair ']' '\x7d', .char '\n',
  .number 0, -- 29, control
  .char 'a', .char 's', .char 'd', .char 'f', .char 'g', .char 'h', .char 'j', .char 'k',
  .char 'l', .pair ';' ':', .pair '\'' '\x22', .char '\x60',
  .number 0, -- 42, left shift
  .char '\\', .char 'z', .char 'x', .char 'c', .char 'v', .char 'b', .char 'n', .char 'm',
  .pair ',' '<', .pair '.' '>', .char '/',
  .number 0, -- 54, right shift
  .char '*', .number 0, .char ' ', .number 0,
  .number 0, -- 59, F1
  .number 0, .number 0, .number 0, .number 0, .number 0, .number 0, .number 0, .number 0,
  .number 0, .number 0, .number 0, .number 0, .number 0, .number 0, .char '-',
  .number 0, .number 0, .number 0, .char '+',
  .number 0, -- 79, End
  .number 0, .number 0, .number 0, .number 0, .number 0, .number 0, .number 0, .number 0,
  .number 0, .number 0]

def lookup (scancode : Nat) : Option Entry :=
  if scancode = 0 then none else scancode2char[scancode - 1]?

structure State where
  tilda : Bool
  shiftOn : Nat
  ctrlOn : Nat
  deriving DecidableEq

inductive Action
  | backspace
  | enter
  | clear
  | tilda
  | echo (c : UInt8)
  deriving DecidableEq

def byte (c : Char) : UInt8 := c.toNat.toUInt8

def character (shiftOn : Nat) : Entry → Option UInt8
  | .number _ => none
  | .char c => some (byte c)
  | .pair plain shifted => [byte plain, byte shifted][shiftOn]?

def yields (s : State) (scancode : Nat) : Option UInt8 :=
  (lookup scancode).bind (character s.shiftOn)

def branch (ctrlOn : Nat) (c : UInt8) : Action :=
  if c = byte '\x08' then .backspace
  else if c = byte '\n' then .enter
  else if ctrlOn = 1 ∧ c = byte 'l' then .clear
  else if c = byte '\x60' then .tilda
  else .echo c

/-- `key_pressed`, but for what it does to the terminal. -/
def keyPressed (scancode : Nat) (s : State) : State × Option Action :=
  if scancode = 0x2a ∨ scancode = 0x36 then ({ s with shiftOn := 1 }, none)
  else if scancode = 0xaa ∨ scancode = 0xb6 then ({ s with shiftOn := 0 }, none)
  else if scancode = 0x1d then ({ s with ctrlOn := 1 }, none)
  else if scancode = 0x9d then ({ s with ctrlOn := 0 }, none)
  else match (yields s scancode).map (branch s.ctrlOn) with
    | some .tilda => ({ s with tilda := !s.tilda }, some .tilda)
    | action => (s, action)

def boot : State := ⟨false, 0, 0⟩

theorem branch_echo (chosen : branch ctrlOn c = .echo d) : d = c ∧ c ≠ byte '\n' := by
  unfold branch at chosen
  split_ifs at chosen with _ enter _ _
  exact ⟨(Action.echo.inj chosen).symm,enter⟩

structure Event where
  key : Nat
  make : Bool

def Event.scancode (event : Event) : Nat :=
  if event.make then event.key else event.key + 0x80

structure Desk where
  keys : State
  held : Nat → Bool

def step (s : Desk) (event : Event) : Option Desk :=
  if event.key < 0x80 ∧ event.make = !s.held event.key then
    some ⟨(keyPressed event.scancode s.keys).1, Function.update s.held event.key event.make⟩
  else none

def Desk.ShiftHeld (s : Desk) : Prop := s.held 0x2a = true ∨ s.held 0x36 = true

instance (s : Desk) : Decidable s.ShiftHeld := inferInstanceAs (Decidable (_ ∨ _))

/-- The modifiers tell which keys are held, and a key with two characters yields the one they
call for. -/
structure Faithful (s : Desk) : Prop where
  shift : s.keys.shiftOn = 1 ↔ s.ShiftHeld
  ctrl : s.keys.ctrlOn = 1 ↔ s.held 0x1d = true
  shifted : ∀ key plain shifted, lookup key = some (.pair plain shifted) →
    yields s.keys key = some (byte (if s.ShiftHeld then shifted else plain))

def OneOfTwoReleased (s : Desk) (event : Event) : Prop :=
  (event.key = 0x2a ∨ event.key = 0x36) ∧ event.make = false ∧
    s.held 0x2a = true ∧ s.held 0x36 = true

theorem OneOfTwoReleased.enabled (released : OneOfTwoReleased s event) :
    ∃ next, step s event = some next := by
  obtain ⟨key,up,left,right⟩ := released
  have turn : event.key < 0x80 ∧ event.make = !s.held event.key := by
    rcases key with key | key <;> simp [key,up,left,right]
  exact ⟨_,if_pos turn⟩

theorem keyPressed_shiftOn (scancode : Nat) (s : State) :
    (keyPressed scancode s).1.shiftOn =
      if scancode = 0x2a ∨ scancode = 0x36 then 1
      else if scancode = 0xaa ∨ scancode = 0xb6 then 0 else s.shiftOn := by
  unfold keyPressed
  split_ifs <;> try rfl
  split <;> rfl

theorem keyPressed_ctrlOn (scancode : Nat) (s : State) :
    (keyPressed scancode s).1.ctrlOn =
      if scancode = 0x1d then 1 else if scancode = 0x9d then 0 else s.ctrlOn := by
  unfold keyPressed
  split_ifs <;> try first | rfl | omega
  split <;> rfl

/-- When an event can happen, and what it makes of the modifiers. -/
theorem step_modifiers (moved : step s event = some next) :
    event.make = (!s.held event.key) ∧
    (next.keys.shiftOn = if event.key = 0x2a ∨ event.key = 0x36 then event.make.toNat
      else s.keys.shiftOn) ∧
    (next.keys.ctrlOn = if event.key = 0x1d then event.make.toNat else s.keys.ctrlOn) ∧
    next.held = Function.update s.held event.key event.make := by
  obtain ⟨⟨plain,turn⟩,rfl⟩ := by simpa [step] using moved
  refine ⟨turn,?_,?_,rfl⟩
  · rw [keyPressed_shiftOn,Event.scancode]
    cases event.make
    · simp only [Bool.false_eq_true,↓reduceIte]
      split_ifs <;> first | rfl | omega
    · simp only [↓reduceIte]
      split_ifs <;> first | rfl | omega
  · rw [keyPressed_ctrlOn,Event.scancode]
    cases event.make
    · simp only [Bool.false_eq_true,↓reduceIte]
      split_ifs <;> first | rfl | omega
    · simp only [↓reduceIte]
      split_ifs <;> first | rfl | omega

/-- A flag that is 0 or 1 and tells whether shift is held picks the character. -/
theorem yields_pair (s : Desk) (flag : s.keys.shiftOn ≤ 1)
    (shift : s.keys.shiftOn = 1 ↔ s.ShiftHeld) (entry : lookup key = some (.pair plain shifted)) :
    yields s.keys key = some (byte (if s.ShiftHeld then shifted else plain)) := by
  rw [yields,entry]
  by_cases held : s.ShiftHeld
  · simp [character,held,shift.mpr held]
  · have off : s.keys.shiftOn = 0 := by
      have := mt shift.mp held
      omega
    simp [character,held,off]

theorem step_flag (flag : s.keys.shiftOn ≤ 1) (moved : step s event = some next) :
    next.keys.shiftOn ≤ 1 := by
  rw [(step_modifiers moved).2.1]
  split_ifs
  · exact event.make.toNat_le
  · exact flag

/-- The modifiers after an event are right exactly when it does not let go of one shift key of
two. -/
theorem faithful_step (faithful : Faithful s) (flag : s.keys.shiftOn ≤ 1)
    (moved : step s event = some next) : Faithful next ↔ ¬OneOfTwoReleased s event := by
  obtain ⟨turn,shiftOn,ctrlOn,held⟩ := step_modifiers moved
  have ctrl : next.keys.ctrlOn = 1 ↔ next.held 0x1d = true := by
    rw [ctrlOn,held]
    by_cases control : event.key = 0x1d
    · cases event.make <;> simp [control]
    · simpa [control,Function.update_of_ne (Ne.symm control)] using faithful.ctrl
  suffices shift : (next.keys.shiftOn = 1 ↔ next.ShiftHeld) ↔ ¬OneOfTwoReleased s event from
    ⟨fun right => shift.mp right.shift,fun fine => ⟨shift.mpr fine,ctrl,fun _ _ _ entry =>
      yields_pair next (step_flag flag moved) (shift.mpr fine) entry⟩⟩
  rw [shiftOn,Desk.ShiftHeld,held,OneOfTwoReleased]
  by_cases left : event.key = 0x2a
  · cases make : event.make
    · have down : s.held 0x2a = true := by simpa [make,left] using turn
      simp [left,down]
    · simp [left]
  by_cases right : event.key = 0x36
  · cases make : event.make
    · have down : s.held 0x36 = true := by simpa [make,right] using turn
      simp [right,down]
    · simp [right]
  · have same := faithful.shift
    rw [Desk.ShiftHeld] at same
    simpa [left,right,Function.update_of_ne (Ne.symm left),Function.update_of_ne (Ne.symm right)]
      using same

def start : Desk := ⟨boot, fun _ => false⟩

theorem start_faithful : Faithful start := by
  have shift : start.keys.shiftOn = 1 ↔ start.ShiftHeld := by simp [start,boot,Desk.ShiftHeld]
  exact ⟨shift,by simp [start,boot],fun _ _ _ entry => yields_pair start (by decide) shift entry⟩

/-- Along every sequence of makes and breaks the modifiers are right after each event exactly
when no shift key goes up while the other is down. -/
theorem modifiers_faithful_iff (events : List Event) :
    Along step (fun s event => ∀ next, step s event = some next → Faithful next) start events ↔
      Along step (fun s event => ¬OneOfTwoReleased s event) start events := by
  refine along_iff (I := fun s => Faithful s ∧ s.keys.shiftOn ≤ 1) ?_ ?_
    ⟨start_faithful,by decide⟩ events
  · rintro s event ⟨faithful,flag⟩
    constructor
    · intro right released
      obtain ⟨next,moved⟩ := released.enabled
      exact (faithful_step faithful flag moved).mp (right next moved) released
    · exact fun fine next moved => (faithful_step faithful flag moved).mpr fine
  · rintro s event next ⟨faithful,flag⟩ right moved
    exact ⟨right next moved,step_flag flag moved⟩

/-- Both shift keys down, and one up again: the other is held, but the flag is clear, and key 9
yields its plain character. -/
theorem one_shift_released : ∃ s,
    run step start [⟨0x2a, true⟩, ⟨0x36, true⟩, ⟨0x2a, false⟩] = some s ∧
      s.held 0x36 = true ∧ s.keys.shiftOn = 0 ∧ yields s.keys 9 = some (byte '8') ∧
      ¬Faithful s := by
  refine ⟨_,rfl,rfl,rfl,rfl,fun faithful => ?_⟩
  exact absurd (faithful.shift.mpr (Or.inr rfl)) (by decide)

end LuaKernel.Keys
