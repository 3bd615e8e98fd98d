import Mathlib.Logic.Function.Basic
import LuaKernel.Runs

/-! The scheduler of `luakernel.lua`: `taskadd`, `wait` and the main loop, one label for each
step that an interrupt or the count hook can fall before. Tasks act by yielding, calling
`wait`, being preempted, raising an error, returning and calling `taskadd`. The loop prints the
value of an error; where `print` raises one itself, the loop ends. -/
namespace LuaKernel.Scheduler

open Runs

/-- Lua numbers as far as the scheduler computes with them. Rounding is allowed, and so is a
value that compares with nothing: order is only transitive. `ofTicks` is the number
`lua_pushinteger` makes of the kernel's counter. -/
class Number (N : Type) extends LE N, Add N where
  decidableLE : DecidableLE N
  ofTicks : Nat → N
  le_trans : ∀ {a b c : N}, a ≤ b → b ≤ c → a ≤ c
  add_mono : ∀ {s t : Nat} {n : N}, s ≤ t → ofTicks 0 ≤ n → ofTicks s + n ≤ ofTicks t + n

export Number (ofTicks)

instance Number.instDecidableLE [Number N] : DecidableLE N := Number.decidableLE

instance Number.instInt : Number Int where
  decidableLE := inferInstance
  ofTicks t := t
  le_trans := Int.le_trans
  add_mono := by omega

/-- What `coroutine.status` says, seen from the scheduler. -/
inductive Status
  | suspended | running | normal | dead
  deriving DecidableEq

inductive Place
  /-- before `coroutine.running` -/
  | enter
  /-- `ipairs` is about to look at entry `i` -/
  | scan (i : Nat)
  /-- entry `i` has this coroutine -/
  | found (i : Nat)
  /-- `timer_ticks` has been read, the sum is not stored yet -/
  | loaded (i now : Nat)
  /-- before `coroutine.yield` -/
  | leaving
  /-- in `coroutine.yield`, or past it and not yet back in the caller -/
  | yielded
  deriving DecidableEq

structure Frame (N : Type) where
  ticks : N
  place : Place

/-- A task's coroutine: its status and, when its code is inside `wait`, that call. -/
structure Coroutine (N : Type) where
  status : Status
  wait : Option (Frame N)

structure Task (N : Type) where
  waitUntil : N
  co : Nat

/-- The scheduler's place in its loop; `i` is the `ipairs` index, from 0. -/
inductive Pc
  | sample | reset
  | next (i : Nat) | test (i : Nat) | compare (i : Nat) | ready (i : Nat) | resume (i : Nat)
  | running (i co : Nat)
  | decide | hlt | halted
  /-- `print(errmsg)` has raised an error on the main thread -/
  | stopped (i : Nat)
  deriving DecidableEq

/-- `kernelTicks` is the C variable `timer_ticks`, `timerTicks` the Lua global of that name:
the count whose number it holds. The 64-bit counter runs at 1000 Hz and is not taken to wrap.
Coroutines are named by numbers, `created` is the next one. -/
structure State (N : Type) where
  kernelTicks : Nat
  timerTicks : Nat
  tasks : List (Task N)
  cos : Nat → Coroutine N
  created : Nat
  anyTasksReady : Bool
  pc : Pc

inductive Action (N : Type)
  /-- an instruction of its own that touches nothing of the scheduler's -/
  | work
  | taskadd
  /-- the call `wait(ticks)` -/
  | wait (ticks : N)
  /-- one step inside `wait` -/
  | advance
  /-- the return from `wait` -/
  | leave
  /-- `coroutine.yield` outside `wait` -/
  | yield
  /-- the count hook fires, `lua_hook` yields -/
  | preempt
  /-- an error, with a value that `print` can print or not -/
  | error (printable : Bool)
  | finish

inductive Label (N : Type)
  /-- the timer interrupt -/
  | tick
  /-- any other interrupt -/
  | interrupt
  /-- the loop reads `get_timer_ticks()` -/
  | sample
  /-- any other step of the loop -/
  | scheduler
  /-- the loop calls `coroutine.resume` for entry `i` -/
  | resume (i : Nat)
  /-- coroutine `c`, running, does `action` -/
  | act (c : Nat) (action : Action N)

variable {N : Type}

def State.setCo (s : State N) (c : Nat) (co : Coroutine N) : State N :=
  { s with cos := Function.update s.cos c co }

section Steps

variable [Number N]

def taskadd (s : State N) : State N :=
  { s with
    tasks := s.tasks ++ [⟨ofTicks 0, s.created⟩]
    cos := Function.update s.cos s.created ⟨.suspended, none⟩
    created := s.created + 1 }

/-- Control comes back to the loop after `coroutine.resume` of entry `i`. -/
def back (s : State N) (i c : Nat) (co : Coroutine N) : State N :=
  { s.setCo c co with pc := .next (i + 1) }

def stop (s : State N) (i c : Nat) (co : Coroutine N) : State N :=
  { s.setCo c co with pc := .stopped i }

/-- One step of `wait(frame.ticks)` on coroutine `c`, resumed for entry `i`. -/
def waitStep (s : State N) (i c : Nat) (frame : Frame N) : Option (State N) :=
  let goto place := some (s.setCo c ⟨.running, some { frame with place := place }⟩)
  match frame.place with
  | .enter => goto (.scan 0)
  | .scan j =>
    match s.tasks[j]? with
    | none => goto .leaving
    | some task => if task.co = c then goto (.found j) else goto (.scan (j + 1))
  | .found j => goto (.loaded j s.timerTicks)
  | .loaded j now =>
    some { s.setCo c ⟨.running, some { frame with place := .leaving }⟩ with
      tasks := s.tasks.modify j fun task =>
        { task with waitUntil := ofTicks now + frame.ticks } }
  | .leaving => some (back s i c ⟨.suspended, some { frame with place := .yielded }⟩)
  | .yielded => none

/-- A step of the running task: `wait` is only left through its own steps. -/
def taskStep (s : State N) (i c : Nat) : Action N → Option (State N)
  | .preempt => some (back s i c { s.cos c with status := .suspended })
  | .error true => some (back s i c { s.cos c with status := .dead })
  | .error false => some (stop s i c { s.cos c with status := .dead })
  | action =>
    match (s.cos c).wait, action with
    | none, .work => some s
    | none, .taskadd => some (taskadd s)
    | none, .wait ticks => some (s.setCo c ⟨.running, some ⟨ticks, .enter⟩⟩)
    | none, .yield => some (back s i c ⟨.suspended, none⟩)
    | none, .finish => some (back s i c ⟨.dead, none⟩)
    | some frame, .advance => waitStep s i c frame
    | some frame, .leave =>
      if frame.place = .yielded then some (s.setCo c ⟨.running, none⟩) else none
    | _, _ => none

def schedulerStep (s : State N) : Option (State N) :=
  match s.pc with
  | .reset => some { s with anyTasksReady := false, pc := .next 0 }
  | .next i => some { s with pc := if i < s.tasks.length then .test i else .decide }
  | .test i => s.tasks[i]?.map fun task =>
    let costatus := (s.cos task.co).status
    { s with pc := if costatus = .suspended ∨ costatus = .normal then .compare i
                   else .next (i + 1) }
  | .compare i => s.tasks[i]?.map fun task =>
    { s with pc := if task.waitUntil ≤ ofTicks s.timerTicks then .ready i else .next (i + 1) }
  | .ready i => some { s with anyTasksReady := true, pc := .resume i }
  | .decide => some { s with pc := if s.anyTasksReady then .sample else .hlt }
  | .hlt => some { s with pc := .halted }
  | _ => none

/-- `coroutine.resume` returns an error at once unless the coroutine is suspended. -/
def resume (s : State N) (i : Nat) : Option (State N) :=
  s.tasks[i]?.map fun task =>
    match s.cos task.co with
    | ⟨.suspended, wait⟩ => { s.setCo task.co ⟨.running, wait⟩ with pc := .running i task.co }
    | _ => { s with pc := .next (i + 1) }

def wake : Pc → Pc
  | .halted => .sample
  | pc => pc

def step (s : State N) : Label N → Option (State N)
  | .tick => some { s with kernelTicks := s.kernelTicks + 1, pc := wake s.pc }
  | .interrupt => some { s with pc := wake s.pc }
  | .sample => if s.pc = .sample then
      some { s with timerTicks := s.kernelTicks, pc := .reset } else none
  | .scheduler => schedulerStep s
  | .resume i => if s.pc = .resume i then resume s i else none
  | .act c action =>
    match s.pc with
    | .running i d => if d = c then taskStep s i c action else none
    | _ => none

/-- After `n` calls of `taskadd` at the top level, `ticks` timer interrupts later. -/
def boot (n ticks : Nat) : State N where
  kernelTicks := ticks
  timerTicks := 0
  tasks := (List.range n).map fun c => ⟨ofTicks 0, c⟩
  cos _ := ⟨.suspended, none⟩
  created := n
  anyTasksReady := false
  pc := .sample

/-- How coroutine `c`, running, moves through `wait` up to the store and after it. -/
inductive WaitMove (s : State N) (c : Nat) :
    Option (Frame N) → Action N → Option (Frame N) → Prop
  | call : WaitMove s c none (.wait ticks) (some ⟨ticks, .enter⟩)
  | enter : WaitMove s c (some ⟨ticks, .enter⟩) .advance (some ⟨ticks, .scan 0⟩)
  | miss (past : s.tasks[j]? = none) :
      WaitMove s c (some ⟨ticks, .scan j⟩) .advance (some ⟨ticks, .leaving⟩)
  | pass (entry : s.tasks[j]? = some task) (other : task.co ≠ c) :
      WaitMove s c (some ⟨ticks, .scan j⟩) .advance (some ⟨ticks, .scan (j + 1)⟩)
  | own (entry : s.tasks[j]? = some task) (same : task.co = c) :
      WaitMove s c (some ⟨ticks, .scan j⟩) .advance (some ⟨ticks, .found j⟩)
  | load : WaitMove s c (some ⟨ticks, .found j⟩) .advance (some ⟨ticks, .loaded j s.timerTicks⟩)
  | leave : WaitMove s c (some ⟨ticks, .yielded⟩) .leave none

/-- How a running coroutine gives control back, from what it was doing to what it is left as. -/
inductive StopMove : Option (Frame N) → Action N → Coroutine N → Prop
  | preempt : StopMove wait .preempt ⟨.suspended, wait⟩
  | error : StopMove wait (.error true) ⟨.dead, wait⟩
  | yield : StopMove none .yield ⟨.suspended, none⟩
  | finish : StopMove none .finish ⟨.dead, none⟩
  | sleep : StopMove (some ⟨ticks, .leaving⟩) .advance ⟨.suspended, some ⟨ticks, .yielded⟩⟩

inductive Moves (s : State N) : Label N → State N → Prop
  | tick : Moves s .tick { s with kernelTicks := s.kernelTicks + 1, pc := wake s.pc }
  | interrupt : Moves s .interrupt { s with pc := wake s.pc }
  | sample (from_ : s.pc = .sample) :
      Moves s .sample { s with timerTicks := s.kernelTicks, pc := .reset }
  | reset (from_ : s.pc = .reset) :
      Moves s .scheduler { s with anyTasksReady := false, pc := .next 0 }
  | enter (from_ : s.pc = .next i) (inside : i < s.tasks.length) :
      Moves s .scheduler { s with pc := .test i }
  | exhausted (from_ : s.pc = .next i) (past : s.tasks.length ≤ i) :
      Moves s .scheduler { s with pc := .decide }
  | alive (from_ : s.pc = .test i) (entry : s.tasks[i]? = some task)
      (status : (s.cos task.co).status = .suspended ∨ (s.cos task.co).status = .normal) :
      Moves s .scheduler { s with pc := .compare i }
  | skip (from_ : s.pc = .test i) (entry : s.tasks[i]? = some task)
      (status : ¬((s.cos task.co).status = .suspended ∨ (s.cos task.co).status = .normal)) :
      Moves s .scheduler { s with pc := .next (i + 1) }
  | due (from_ : s.pc = .compare i) (entry : s.tasks[i]? = some task)
      (reached : task.waitUntil ≤ ofTicks s.timerTicks) :
      Moves s .scheduler { s with pc := .ready i }
  | early (from_ : s.pc = .compare i) (entry : s.tasks[i]? = some task)
      (unreached : ¬task.waitUntil ≤ ofTicks s.timerTicks) :
      Moves s .scheduler { s with pc := .next (i + 1) }
  | mark (from_ : s.pc = .ready i) :
      Moves s .scheduler { s with anyTasksReady := true, pc := .resume i }
  | again (from_ : s.pc = .decide) (ready : s.anyTasksReady = true) :
      Moves s .scheduler { s with pc := .sample }
  | idle (from_ : s.pc = .decide) (ready : s.anyTasksReady = false) :
      Moves s .scheduler { s with pc := .hlt }
  | halt (from_ : s.pc = .hlt) : Moves s .scheduler { s with pc := .halted }
  | resume (from_ : s.pc = .resume i) (entry : s.tasks[i]? = some task)
      (status : (s.cos task.co).status = .suspended) :
      Moves s (.resume i) { s.setCo task.co ⟨.running, (s.cos task.co).wait⟩ with
        pc := .running i task.co }
  | refuse (from_ : s.pc = .resume i) (entry : s.tasks[i]? = some task)
      (status : (s.cos task.co).status ≠ .suspended) :
      Moves s (.resume i) { s with pc := .next (i + 1) }
  | work (from_ : s.pc = .running i c) (own : (s.cos c).wait = none) :
      Moves s (.act c .work) s
  | taskadd (from_ : s.pc = .running i c) (own : (s.cos c).wait = none) :
      Moves s (.act c .taskadd) (taskadd s)
  | inside (from_ : s.pc = .running i c) (wait : WaitMove s c (s.cos c).wait action frame) :
      Moves s (.act c action) (s.setCo c ⟨.running, frame⟩)
  | store (from_ : s.pc = .running i c) (frame : (s.cos c).wait = some ⟨ticks, .loaded j now⟩) :
      Moves s (.act c .advance) { s.setCo c ⟨.running, some ⟨ticks, .leaving⟩⟩ with
        tasks := s.tasks.modify j fun task => { task with waitUntil := ofTicks now + ticks } }
  | back (from_ : s.pc = .running i c) (stop : StopMove (s.cos c).wait action co) :
      Moves s (.act c action) (back s i c co)
  | stop (from_ : s.pc = .running i c) :
      Moves s (.act c (.error false)) (stop s i c ⟨.dead, (s.cos c).wait⟩)

theorem waitStep_moves (from_ : s.pc = .running i c) (frame : Frame N)
    (current : (s.cos c).wait = some frame) (moved : waitStep s i c frame = some next) :
    Moves s (.act c .advance) next := by
  obtain ⟨ticks,place⟩ := frame
  cases place with
  | enter => obtain rfl := Option.some.inj moved; exact .inside from_ (current ▸ .enter)
  | scan j =>
    simp only [waitStep] at moved
    split at moved
    · obtain rfl := Option.some.inj moved
      exact .inside from_ (current ▸ .miss (by assumption))
    · rename_i task entry
      split at moved
      · obtain rfl := Option.some.inj moved
        exact .inside from_ (current ▸ .own entry (by assumption))
      · obtain rfl := Option.some.inj moved
        exact .inside from_ (current ▸ .pass entry (by assumption))
  | found j => obtain rfl := Option.some.inj moved; exact .inside from_ (current ▸ .load)
  | loaded j now => obtain rfl := Option.some.inj moved; exact .store from_ current
  | leaving => obtain rfl := Option.some.inj moved; exact .back from_ (current ▸ .sleep)
  | yielded => simp [waitStep] at moved

theorem error_moves (from_ : s.pc = .running i c) (printable : Bool) (next : State N)
    (moved : taskStep s i c (.error printable) = some next) :
    Moves s (.act c (.error printable)) next := by
  cases printable with
  | true => obtain rfl := Option.some.inj moved; exact .back from_ .error
  | false => obtain rfl := Option.some.inj moved; exact .stop from_

theorem taskStep_moves (from_ : s.pc = .running i c) (action : Action N)
    (moved : taskStep s i c action = some next) : Moves s (.act c action) next := by
  cases own : (s.cos c).wait with
  | none =>
    cases action
    case error => exact error_moves from_ _ next moved
    all_goals simp only [taskStep,own,Option.some.injEq,reduceCtorEq] at moved
    all_goals subst moved
    case work => exact .work from_ own
    case taskadd => exact .taskadd from_ own
    case wait => exact .inside from_ (own ▸ .call)
    case yield => exact .back from_ (own ▸ .yield)
    case preempt => exact .back from_ (own ▸ .preempt)
    case finish => exact .back from_ (own ▸ .finish)
  | some frame =>
    cases action
    case error => exact error_moves from_ _ next moved
    all_goals simp only [taskStep,own,Option.some.injEq,reduceCtorEq] at moved
    case advance => exact waitStep_moves from_ frame own moved
    case leave =>
      obtain ⟨ticks,place⟩ := frame
      split at moved
      · rename_i last
        cases last
        obtain rfl := Option.some.inj moved
        exact .inside from_ (own ▸ .leave)
      · contradiction
    case preempt => subst moved; exact .back from_ (own ▸ .preempt)

theorem schedulerStep_moves (s next : State N) (moved : schedulerStep s = some next) :
    Moves s .scheduler next := by
  unfold schedulerStep at moved
  split at moved
  · obtain rfl := Option.some.inj moved; exact .reset (by assumption)
  · rename_i i from_
    obtain rfl := Option.some.inj moved
    split
    · exact .enter from_ (by assumption)
    · exact .exhausted from_ (by omega)
  · rename_i i from_
    obtain ⟨task,entry,rfl⟩ := Option.map_eq_some_iff.mp moved
    dsimp only
    split
    · exact .alive from_ entry (by assumption)
    · exact .skip from_ entry (by assumption)
  · rename_i i from_
    obtain ⟨task,entry,rfl⟩ := Option.map_eq_some_iff.mp moved
    split
    · exact .due from_ entry (by assumption)
    · exact .early from_ entry (by assumption)
  · obtain rfl := Option.some.inj moved; exact .mark (by assumption)
  · rename_i from_
    obtain rfl := Option.some.inj moved
    split
    · exact .again from_ (by assumption)
    · rename_i notReady
      exact .idle from_ (by simpa using notReady)
  · obtain rfl := Option.some.inj moved; exact .halt (by assumption)
  · contradiction

theorem resume_moves (s next : State N) (from_ : s.pc = .resume i)
    (moved : resume s i = some next) : Moves s (.resume i) next := by
  obtain ⟨task,entry,rfl⟩ := Option.map_eq_some_iff.mp moved
  split
  · rename_i wait co
    have status : (s.cos task.co).status = .suspended := by rw [co]
    have same : (s.cos task.co).wait = wait := by rw [co]
    exact same ▸ .resume from_ entry status
  · rename_i other
    refine .refuse from_ entry fun status => ?_
    exact other _ (by rw [← status])

theorem step_moves (s next : State N) (moved : step s label = some next) :
    Moves s label next := by
  cases label with
  | tick => obtain rfl := Option.some.inj moved; exact .tick
  | interrupt => obtain rfl := Option.some.inj moved; exact .interrupt
  | sample =>
    simp only [step] at moved
    split at moved
    · obtain rfl := Option.some.inj moved; exact .sample (by assumption)
    · contradiction
  | scheduler => exact schedulerStep_moves s next moved
  | resume i =>
    simp only [step] at moved
    split at moved
    · exact resume_moves s next (by assumption) moved
    · contradiction
  | act c action =>
    simp only [step] at moved
    split at moved
    · rename_i i d from_
      split at moved
      · rename_i same
        exact taskStep_moves (same ▸ from_) action moved
      · contradiction
    · contradiction

end Steps

end LuaKernel.Scheduler
