import LuaKernel.SchedulerPass

/-! The decision to halt. It rests on the tick sampled at the start of the pass, and the
timer interrupt may advance the counter at any step between the sample and `hlt`. -/
namespace LuaKernel.Scheduler

open Runs

variable {N : Type} [Number N]

def ticksOf (labels : List (Label N)) : Nat :=
  labels.countP fun
    | .tick => true
    | _ => false

theorem ticksOf_step (s next : State N) (moved : step s label = some next)
    (notSample : label ≠ .sample) : next.kernelTicks = s.kernelTicks + ticksOf [label] := by
  cases step_moves s next moved
  case sample => contradiction
  all_goals rfl

structure Idle (first : State N) (history : List (Label N)) (s : State N) : Prop where
  pass : Pass first history s
  clock : s.kernelTicks = first.kernelTicks + ticksOf history
  unresumed : resumed history = [] →
    s.tasks = first.tasks ∧ s.cos = first.cos ∧ ∀ i c, s.pc ≠ .running i c
  marked : ∀ {i}, s.pc = .resume i → s.anyTasksReady = true
  flag : s.pc ≠ .reset → s.anyTasksReady = false → resumed history = []
  halting : s.pc = .hlt → s.anyTasksReady = false

theorem wake_ne (pc : Pc) (notSample : after ≠ .sample)
    (woken : wake pc = after) : pc = after := by
  cases pc <;> simp_all [wake]

/-- Outside a task and its resumption, no step touches the list or a coroutine. -/
theorem step_outside (s next : State N) (moved : step s label = some next)
    (notRunning : ∀ i c, s.pc ≠ .running i c) (notResume : ∀ i, label ≠ .resume i) :
    next.tasks = s.tasks ∧ next.cos = s.cos ∧ ∀ i c, next.pc ≠ .running i c := by
  cases step_moves s next moved
  case tick | interrupt =>
    exact ⟨rfl,rfl,fun i c runs => notRunning i c (wake_ne s.pc nofun runs)⟩
  case resume i _ _ _ _ | refuse i _ _ _ _ => exact absurd rfl (notResume _)
  case work from_ _ | taskadd from_ _ | inside from_ _ | store from_ _ | back from_ _ |
      stop from_ =>
    exact absurd from_ (notRunning _ _)
  all_goals exact ⟨rfl,rfl,nofun⟩

theorem step_marked (s next : State N) (moved : step s label = some next)
    (marked : ∀ {i}, s.pc = .resume i → s.anyTasksReady = true) (after : next.pc = .resume i) :
    next.anyTasksReady = true := by
  cases step_moves s next moved
  case tick | interrupt => exact marked (wake_ne s.pc nofun after)
  case mark => rfl
  case work from_ _ | taskadd from_ _ | inside from_ _ | store from_ _ =>
    exact absurd (from_.symm.trans after) nofun
  all_goals contradiction

theorem step_halting (s next : State N) (moved : step s label = some next)
    (halting : s.pc = .hlt → s.anyTasksReady = false) (after : next.pc = .hlt) :
    next.anyTasksReady = false := by
  cases step_moves s next moved
  case tick | interrupt => exact halting (wake_ne s.pc nofun after)
  case idle _ unready => exact unready
  case work from_ _ | taskadd from_ _ | inside from_ _ | store from_ _ =>
    exact absurd (from_.symm.trans after) nofun
  all_goals contradiction

/-- The flag is down after a step only if it was, or at the reset. -/
theorem step_unready (s next : State N) (moved : step s label = some next)
    (marked : ∀ {i}, s.pc = .resume i → s.anyTasksReady = true)
    (unready : next.anyTasksReady = false) :
    (s.pc = .reset ∨ s.anyTasksReady = false) ∧ resumed [label] = [] := by
  cases step_moves s next moved with
  | reset from_ => exact ⟨Or.inl from_,rfl⟩
  | mark => contradiction
  | resume from_ | refuse from_ =>
    have ready : s.anyTasksReady = false := unready
    rw [marked from_] at ready
    contradiction
  | _ => exact ⟨Or.inr unready,rfl⟩

theorem Idle.step (idle : Idle first history s) (next : State N)
    (moved : step s label = some next) (notSample : label ≠ .sample) :
    Idle first (history ++ [label]) next := by
  constructor
  · exact idle.pass.step next moved notSample
  · rw [ticksOf_step s next moved notSample,idle.clock,ticksOf,ticksOf,ticksOf,
      List.countP_append,Nat.add_assoc]
  · intro none
    rw [resumed_append,List.append_eq_nil_iff] at none
    obtain ⟨tasks,cos,notRunning⟩ := idle.unresumed none.1
    obtain ⟨tasks',cos',notRunning'⟩ := step_outside s next moved notRunning
      (by rintro i rfl; simp [resumed] at none)
    exact ⟨tasks'.trans tasks,cos'.trans cos,notRunning'⟩
  · exact step_marked s next moved idle.marked
  · intro notReset unready
    rw [resumed_append,List.append_eq_nil_iff]
    obtain ⟨before,none⟩ := step_unready s next moved idle.marked unready
    refine ⟨?_,none⟩
    by_cases start : s.pc = .reset
    · apply List.eq_nil_iff_forall_not_mem.mpr
      intro i member
      have := (idle.pass.before member).1
      simp [walked,start] at this
    · exact idle.flag start (before.resolve_left start)
  · exact step_halting s next moved idle.halting

/-- At `hlt` the pass has resumed nobody: the tasks are as they were at the sample, and none
was ready then. -/
theorem Idle.halted (t : State N) (idle : Idle first history t) (halts : t.pc = .hlt) :
    (∀ now i, Ready t now i ↔ Ready first now i) ∧ ∀ i, ¬Ready first first.timerTicks i := by
  have none := idle.flag (by simp [halts]) (idle.halting halts)
  obtain ⟨tasks,cos,-⟩ := idle.unresumed none
  refine ⟨by simp [Ready,tasks,cos],?_⟩
  rintro i ⟨task,entry,suspended,due⟩
  have old : i < first.tasks.length := (List.getElem?_eq_some_iff.mp entry).1
  have turn : i < walked t := by simpa [walked,halts,tasks] using old
  have member := (idle.pass.exact turn old).mpr ⟨task,entry,suspended,due⟩
  simp [none] at member

theorem idle_run (s t : State N) (reached : Reached s)
    (ran : run step s (.sample :: window) = some t) (one : .sample ∉ window) :
    ∃ first, step s .sample = some first ∧ Idle first window t := by
  obtain ⟨first,moved,later⟩ := (run_cons s t .sample window).mp ran
  have sampled : run step s [Label.sample] = some first :=
    (run_cons s first Label.sample []).mpr ⟨first,moved,rfl⟩
  obtain ⟨_,same,start⟩ := pass_run s first reached sampled (by simp)
  rw [moved] at same
  obtain rfl := Option.some.inj same
  refine ⟨first,moved,?_⟩
  refine run_history (· ≠ .sample) ?_
    (fun history s label next idle notSample moved => idle.step next moved notSample)
    (by rintro _ member rfl; exact one member) later
  cases step_moves s first moved with
  | sample => exact ⟨start,rfl,fun _ => ⟨rfl,rfl,nofun⟩,nofun,fun _ _ => rfl,nofun⟩

/-- Before the first sample the loop stands at it. -/
theorem sample_before (s t : State N) (first : s.pc = .sample) (none : .sample ∉ labels)
    (ran : run step s labels = some t) : t.pc = .sample := by
  refine run_history (P := fun _ t => t.pc = .sample) (· ≠ .sample) first ?_
    (by rintro _ member rfl; exact none member) ran
  intro _ s label next here notSample moved
  cases step_moves s next moved <;> simp_all [wake]

/-- `hlt` is executed in `t` with no suspended task due at the current tick. -/
def HaltSafe (t : State N) : Prop := ∀ i, ¬Ready t t.kernelTicks i

theorem halt_safe_iff (n ticks : Nat) (labels : List (Label N)) (t : State N)
    (ran : run step (boot n ticks) labels = some t) (halts : t.pc = .hlt) :
    ∃ earlier window s, labels = earlier ++ .sample :: window ∧ .sample ∉ window ∧
      run step (boot n ticks) earlier = some s ∧
      (HaltSafe t ↔
        ∀ i, Ready s (s.kernelTicks + ticksOf window) i → Ready s s.kernelTicks i) := by
  have sampled : .sample ∈ labels := by
    by_contra none
    have := sample_before (boot n ticks) t rfl none ran
    rw [halts] at this
    contradiction
  obtain ⟨window,earlier,split,one⟩ := List.eq_append_cons_of_mem (List.mem_reverse.mpr sampled)
  have split' : labels = earlier.reverse ++ .sample :: window.reverse := by
    rw [← List.reverse_reverse labels,split]
    simp
  obtain ⟨s,before,pass⟩ := (run_append _ _ _ _).mp (split' ▸ ran)
  have reached := reached_run _ s (reached_boot n ticks) before
  refine ⟨_,_,s,split',by simpa using one,before,?_⟩
  obtain ⟨first,moved,idle⟩ := idle_run s t reached pass (by simpa using one)
  obtain ⟨same,unready⟩ := idle.halted t halts
  have clock := idle.clock
  cases step_moves s first moved with
  | sample from_ =>
    rw [HaltSafe,clock]
    constructor
    · exact fun safe i ready => absurd ((same _ i).mpr ready) (safe i)
    · exact fun window i ready => unready i (window i ((same _ i).mp ready))

/-- A pass in which the only task calls `wait(1)` at tick 0. -/
def fallAsleep : List (Label Int) :=
  .sample :: .scheduler :: turn 0 [.wait 1, .advance, .advance, .advance, .advance, .advance] ++
    [.scheduler, .scheduler]

/-- The pass after it, with `late` between the comparison and the decision. -/
def thenHalt (late : List (Label Int)) : List (Label Int) :=
  [.sample, .scheduler, .scheduler, .scheduler, .scheduler] ++ late ++ [.scheduler, .scheduler]

theorem halts_without_tick : ∃ t : State Int,
    run step (boot 1 0) (fallAsleep ++ thenHalt []) = some t ∧ t.pc = .hlt ∧ HaltSafe t := by
  obtain ⟨t,ran,halts⟩ : ∃ t : State Int,
      run step (boot 1 0) (fallAsleep ++ thenHalt []) = some t ∧ t.pc = .hlt := ⟨_,rfl,rfl⟩
  obtain ⟨earlier,window,s,split,-,-,safe⟩ := halt_safe_iff 1 0 _ t ran halts
  refine ⟨t,ran,halts,safe.mpr ?_⟩
  have quiet : ticksOf (fallAsleep ++ thenHalt []) = 0 := rfl
  rw [split,ticksOf,List.countP_append,List.countP_cons] at quiet
  have none : ticksOf window = 0 := by
    rw [ticksOf]
    omega
  simp [none]

/-- The tick the task waits for comes after the loop has compared: it halts all the same. -/
theorem halts_with_due_task : ∃ t : State Int,
    run step (boot 1 0) (fallAsleep ++ thenHalt [.tick]) = some t ∧ t.pc = .hlt ∧
      ¬HaltSafe t := by
  refine ⟨_,rfl,rfl,fun safe => safe 0 ⟨_,rfl,rfl,?_⟩⟩
  decide

end LuaKernel.Scheduler
