import Mathlib.Logic.Function.Basic

/-! The 8259 interrupt controller, and two of them in cascade. A rising edge on a line is latched
as a request, which falls with its line; the initialisation words reset the latches. Modes that
none of these words turns on are left out. -/
namespace LuaKernel.Pic

abbrev Levels := Fin 8 → Bool

def levels (byte : Nat) : Levels := fun i => byte.testBit i

def noLevel : Levels := fun _ => false

def onlyLevel (i : Fin 8) : Levels := fun j => decide (j = i)

/-- What the next write to the data port is: the mask, or an initialisation word. -/
inductive Phase
  | mask
  | icw2
  | icw3
  | icw4
  deriving DecidableEq

/-- What commands and initialisation words act on. The level `lowest` has the least priority, and
the one behind it, in a circle, the most. -/
structure Setup where
  phase : Phase
  single : Bool
  ic4 : Bool
  base : Nat
  icw3 : Nat
  autoEoi : Bool
  lowest : Fin 8
  imr : Levels
  isr : Levels

structure Controller extends Setup where
  line : Levels
  irr : Levels

def order (lowest : Fin 8) : List (Fin 8) := [1, 2, 3, 4, 5, 6, 7, 8].map (lowest + ·)

/-- A non-specific end of interrupt: the in-service level of the highest priority is done. -/
def Setup.eoi (c : Setup) : Setup :=
  match (order c.lowest).find? c.isr with
  | some i => { c with isr := Function.update c.isr i false }
  | none => c

def Setup.command (value : Nat) (c : Setup) : Setup :=
  if value.testBit 4 then
    { c with
      phase := .icw2
      single := value.testBit 1
      ic4 := value.testBit 0
      autoEoi := false
      lowest := 7
      imr := noLevel
      isr := noLevel }
  else if value = 0x20 then c.eoi
  else c

def Setup.data (value : Nat) (c : Setup) : Setup :=
  match c.phase with
  | .icw2 => { c with
      base := value / 8 * 8
      phase := if !c.single then .icw3 else if c.ic4 then .icw4 else .mask }
  | .icw3 => { c with icw3 := value, phase := if c.ic4 then .icw4 else .mask }
  | .icw4 => { c with autoEoi := value.testBit 1, phase := .mask }
  | .mask => { c with imr := levels value }

def Controller.command (value : Nat) (c : Controller) : Controller where
  toSetup := c.toSetup.command value
  line := c.line
  irr := if value.testBit 4 then noLevel else c.irr

def Controller.data (value : Nat) (c : Controller) : Controller :=
  { c with toSetup := c.toSetup.data value }

def Controller.drive (i : Fin 8) (level : Bool) (c : Controller) : Controller :=
  { c with
    line := Function.update c.line i level
    irr := Function.update c.irr i (level && (c.irr i || !c.line i)) }

/-- The request that INT is raised for: not masked, and of a higher priority than all levels in
service. -/
def Controller.request (c : Controller) : Option (Fin 8) :=
  ((order c.lowest).takeWhile fun i => !c.isr i).find? fun i => c.irr i && !c.imr i

def Controller.acknowledge (i : Fin 8) (c : Controller) : Controller :=
  { c with
    irr := Function.update c.irr i false
    isr := if c.autoEoi then c.isr else Function.update c.isr i true }

structure Pair where
  master : Controller
  slave : Controller

def Pair.sync (p : Pair) : Pair :=
  { p with master := p.master.drive 2 p.slave.request.isSome }

def Pair.out (port value : Nat) (p : Pair) : Pair :=
  Pair.sync <|
    if port = 0x20 then { p with master := p.master.command value }
    else if port = 0x21 then { p with master := p.master.data value }
    else if port = 0xa0 then { p with slave := p.slave.command value }
    else if port = 0xa1 then { p with slave := p.slave.data value }
    else p

/-- The processor acknowledges INT, if it is raised, and gets a vector. A slave that has no
request by then answers with its level 7; without one the bus floats. -/
def Pair.acknowledge (p : Pair) : Option (Nat × Pair) :=
  p.master.request.map fun i =>
    let master := p.master.acknowledge i
    if ¬p.master.icw3.testBit i then
      (p.master.base + i, Pair.sync { p with master := master })
    else if p.slave.icw3 % 8 ≠ i then (0xff, Pair.sync { p with master := master })
    else match p.slave.request with
      | some j => (p.slave.base + j, Pair.sync ⟨master, p.slave.acknowledge j⟩)
      | none => (p.slave.base + 7, Pair.sync { p with master := master })

theorem mem_order (i : Fin 8) : i ∈ order 7 := by
  revert i
  decide

theorem request_some {c : Controller} (requested : c.request = some i) :
    c.irr i = true ∧ c.imr i = false := by
  have found := List.find?_some requested
  simpa using found

/-- With nothing in service every request that is not masked raises INT. -/
theorem request_isSome {c : Controller} (fixed : c.lowest = 7) (idle : c.isr = noLevel)
    (requested : c.irr i = true) (unmasked : c.imr i = false) : c.request.isSome = true := by
  have all : ((order c.lowest).takeWhile fun i => !c.isr i) = order 7 := by
    rw [fixed,idle]
    rfl
  rw [Controller.request,all,List.find?_isSome]
  exact ⟨i,mem_order i,by simp [requested,unmasked]⟩

theorem request_none {c : Controller} (quiet : ∀ i, c.irr i = true → c.imr i = true) :
    c.request = none := by
  rw [Controller.request,List.find?_eq_none]
  intro i _
  simpa using quiet i

theorem find_only (i : Fin 8) : (order 7).find? (onlyLevel i) = some i := by
  revert i
  decide

/-- An end of interrupt while one level is in service. -/
theorem eoi_only {c : Setup} (fixed : c.lowest = 7) (one : c.isr = onlyLevel i) :
    c.eoi = { c with isr := noLevel } := by
  have found : (order c.lowest).find? c.isr = some i := by rw [fixed,one,find_only]
  have cleared : Function.update (onlyLevel i) i false = noLevel := by
    funext j
    by_cases same : j = i <;> simp [same,onlyLevel,noLevel]
  rw [Setup.eoi,found]
  simp only [one,cleared]

structure Pair.Synced (p : Pair) : Prop where
  line : p.master.line 2 = p.slave.request.isSome
  irr : p.master.irr 2 = p.slave.request.isSome

theorem Pair.sync_synced (p : Pair)
    (latched : p.slave.request.isSome = true → p.master.line 2 = true → p.master.irr 2 = true) :
    p.sync.Synced := by
  refine ⟨by simp [Pair.sync,Controller.drive],?_⟩
  cases raised : p.slave.request.isSome with
  | false => simp [Pair.sync,Controller.drive,raised]
  | true =>
    cases high : p.master.line 2 with
    | false => simp [Pair.sync,Controller.drive,raised,high]
    | true => simp [Pair.sync,Controller.drive,raised,high,latched raised high]

end LuaKernel.Pic
