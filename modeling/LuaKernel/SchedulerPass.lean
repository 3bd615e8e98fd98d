import Mathlib.Data.List.Nodup
import LuaKernel.SchedulerInvariant

/-! One pass of the main loop, from the sample of the clock on: `ipairs` walks a list that the
resumed tasks extend, and each entry has its turn once. -/
namespace LuaKernel.Scheduler

open Runs

variable {N : Type} [Number N]

def resumed (labels : List (Label N)) : List Nat :=
  labels.filterMap fun
    | .resume i => some i
    | _ => none

omit [Number N] in
theorem resumed_append (history : List (Label N)) (label : Label N) :
    resumed (history ++ [label]) = resumed history ++ resumed [label] := by
  simp [resumed]

/-- How many entries have had their turn in the pass that `s` is in. -/
def walked (s : State N) : Nat :=
  match s.pc with
  | .reset => 0
  | .next i | .test i | .compare i | .ready i | .resume i => i
  | .running i _ | .stopped i => i + 1
  | .sample | .decide | .hlt | .halted => s.tasks.length

def Ready (s : State N) (now i : Nat) : Prop :=
  ∃ task, s.tasks[i]? = some task ∧ (s.cos task.co).status = .suspended ∧
    task.waitUntil ≤ ofTicks now

theorem step_now (s next : State N) (moved : step s label = some next)
    (notSample : label ≠ .sample) : next.timerTicks = s.timerTicks := by
  cases step_moves s next moved
  case sample => contradiction
  all_goals rfl

theorem step_length (s next : State N) (moved : step s label = some next) :
    s.tasks.length ≤ next.tasks.length := by
  cases step_moves s next moved
  case taskadd => simp [taskadd]
  case store => simp
  all_goals exact Nat.le_refl _

/-- The pass that began in `first`, right after the sample. -/
structure Pass (first : State N) (history : List (Label N)) (s : State N) : Prop where
  reached : Reached s
  now : s.timerTicks = first.timerTicks
  grown : first.tasks.length ≤ s.tasks.length
  /-- Until its turn nobody else touches a task. -/
  untouched : ∀ {j task}, first.tasks[j]? = some task → walked s ≤ j →
    s.tasks[j]? = some task ∧ s.cos task.co = first.cos task.co
  ordered : (resumed history).Pairwise (· < ·)
  before : ∀ {i}, i ∈ resumed history → i < walked s ∧ i < s.tasks.length
  exact : ∀ {i}, i < walked s → i < first.tasks.length →
    (i ∈ resumed history ↔ Ready first first.timerTicks i)

theorem Pass.ready_iff (pass : Pass (first : State N) history s) (turn : walked s ≤ i)
    (old : i < first.tasks.length) :
    Ready first first.timerTicks i ↔ Ready s first.timerTicks i := by
  obtain ⟨task,entry⟩ : ∃ task, first.tasks[i]? = some task := by simp [old]
  obtain ⟨same,co⟩ := pass.untouched entry turn
  simp [Ready,entry,same,co]

/-- An entry whose turn is to come is neither running nor just resumed. -/
theorem Pass.still (pass : Pass first history s) (next : State N)
    (moved : step s label = some next) (entry : first.tasks[j]? = some task)
    (turn : walked s ≤ j) (other : label ≠ .resume j) :
    next.tasks[j]? = some task ∧ next.cos task.co = first.cos task.co := by
  obtain ⟨same,co⟩ := pass.untouched entry turn
  rw [← co]
  refine step_untouched s next pass.reached.sound moved same ?_ other
  intro i runs
  have := pass.reached.sound.distinct (pass.reached.sound.current runs) (entry_of same)
  simp only [walked,runs] at turn
  omega

/-- A step that resumes nothing; the entries it walks past are not ready. -/
theorem Pass.extend (pass : Pass first history s) (next : State N)
    (moved : step s label = some next) (notSample : label ≠ .sample)
    (none : resumed [label] = [])
    (skipped : ∀ i, walked s ≤ i → i < walked next → ¬Ready s first.timerTicks i)
    (forward : min (walked s) s.tasks.length ≤ walked next) :
    Pass first (history ++ [label]) next := by
  have length := step_length s next moved
  have grown := pass.grown
  have same : resumed (history ++ [label]) = resumed history := by
    rw [resumed_append,none,List.append_nil]
  constructor
  · exact reached_step s next pass.reached moved
  · rw [step_now s next moved notSample,pass.now]
  · omega
  · intro j task entry turn
    have old : j < first.tasks.length := (List.getElem?_eq_some_iff.mp entry).1
    exact pass.still next moved entry (by omega) (by rintro rfl; contradiction)
  · rw [same]
    exact pass.ordered
  · intro i member
    rw [same] at member
    have := pass.before member
    omega
  · intro i turn old
    rw [same]
    by_cases earlier : i < walked s
    · exact pass.exact earlier old
    · have absent : i ∉ resumed history := fun member => earlier (pass.before member).1
      have notReady := skipped i (by omega) turn
      rw [← pass.ready_iff (by omega) old] at notReady
      simp [absent,notReady]

theorem Pass.resume (pass : Pass first history s) (next : State N)
    (moved : step s (.resume i) = some next) : Pass first (history ++ [.resume i]) next := by
  have after := reached_step s next pass.reached moved
  obtain ⟨task,from_,entry,status,due,rfl⟩ := resume_step s next pass.reached moved
  have here : walked s = i := by simp [walked,from_]
  have inside : i < s.tasks.length := (List.getElem?_eq_some_iff.mp entry).1
  have ready : Ready s first.timerTicks i := ⟨task,entry,status,pass.now ▸ due⟩
  have history' : resumed (history ++ [.resume i]) = resumed history ++ [i] := by
    simp [resumed]
  have step' : walked { s.setCo task.co ⟨.running, (s.cos task.co).wait⟩ with
      pc := .running i task.co } = i + 1 := rfl
  constructor
  · exact after
  · exact pass.now
  · exact pass.grown
  · intro j other entry turn
    exact pass.still _ moved entry (by omega) (by rintro ⟨⟩; omega)
  · rw [history',List.pairwise_append]
    refine ⟨pass.ordered,by simp,?_⟩
    intro j member k last
    obtain rfl := List.mem_singleton.mp last
    exact here ▸ (pass.before member).1
  · intro j member
    rw [history',List.mem_append,List.mem_singleton] at member
    rcases member with member | rfl
    · have := pass.before member
      exact ⟨by omega,this.2⟩
    · exact ⟨by omega,inside⟩
  · intro j turn old
    rw [history',List.mem_append,List.mem_singleton]
    by_cases last : j = i
    · subst last
      simp [(pass.ready_iff (by omega) old).mpr ready]
    · rw [← pass.exact (by omega) old]
      simp [last]

omit [Number N] in
theorem walked_wake (s : State N) (ticks : Nat) :
    walked { s with kernelTicks := ticks, pc := wake s.pc } = walked s := by
  cases h : s.pc <;> simp [walked,wake,h]

theorem Pass.step (pass : Pass first history s) (next : State N)
    (moved : step s label = some next) (notSample : label ≠ .sample) :
    Pass first (history ++ [label]) next := by
  have stay (none : resumed [label] = []) (same : walked next = walked s) :
      Pass first (history ++ [label]) next :=
    pass.extend next moved notSample none (by omega) (by omega)
  have now := pass.now
  cases step_moves s next moved with
  | tick => exact stay rfl (walked_wake s _)
  | interrupt => exact stay rfl (walked_wake s _)
  | sample => contradiction
  | reset from_ => exact stay rfl (by simp [walked,from_])
  | enter from_ inside => exact stay rfl (by simp [walked,from_])
  | @exhausted i from_ past =>
    refine pass.extend _ moved notSample rfl ?_ ?_
    all_goals simp only [walked,from_]; omega
  | alive from_ entry status => exact stay rfl (by simp [walked,from_])
  | @skip i task from_ entry status =>
    refine pass.extend _ moved notSample rfl ?_ ?_
    · intro j lower upper
      obtain rfl : j = i := by simp only [walked,from_] at lower upper; omega
      rintro ⟨other,same,suspended,-⟩
      rw [entry] at same
      exact status (Or.inl (Option.some.inj same ▸ suspended))
    · simp only [walked,from_]; omega
  | due from_ entry reached => exact stay rfl (by simp [walked,from_])
  | @early i task from_ entry unreached =>
    refine pass.extend _ moved notSample rfl ?_ ?_
    · intro j lower upper
      obtain rfl : j = i := by simp only [walked,from_] at lower upper; omega
      rintro ⟨other,same,-,due⟩
      rw [entry] at same
      exact unreached (now ▸ Option.some.inj same ▸ due)
    · simp only [walked,from_]; omega
  | mark from_ => exact stay rfl (by simp [walked,from_])
  | again from_ ready => exact stay rfl (by simp [walked,from_])
  | idle from_ ready => exact stay rfl (by simp [walked,from_])
  | halt from_ => exact stay rfl (by simp [walked,from_])
  | resume => exact pass.resume _ moved
  | refuse => exact pass.resume _ moved
  | work => exact stay rfl rfl
  | taskadd from_ _ => exact stay rfl (by simp [walked,taskadd,from_])
  | inside from_ wait => exact stay rfl (by simp [walked,State.setCo,from_])
  | store from_ frame => exact stay rfl (by simp [walked,State.setCo,from_])
  | back from_ stop => exact stay rfl (by simp [walked,back,from_])
  | stop from_ => exact stay rfl (by simp [walked,Scheduler.stop,from_])

theorem pass_run (s t : State N) (reached : Reached s)
    (ran : run step s (.sample :: labels) = some t) (one : .sample ∉ labels) :
    ∃ first, step s .sample = some first ∧ Pass first labels t := by
  obtain ⟨first,moved,later⟩ := (run_cons s t .sample labels).mp ran
  refine ⟨first,moved,?_⟩
  refine run_history (· ≠ .sample) ?_
    (fun history s label next pass notSample moved => pass.step next moved notSample)
    (fun label member same => one (same ▸ member)) later
  have after := reached_step s first reached moved
  have none : walked first = 0 := by
    cases step_moves s first moved with
    | sample from_ => rfl
  exact ⟨after,rfl,Nat.le_refl _,fun entry _ => ⟨entry,rfl⟩,.nil,nofun,by omega⟩

def Dead (s : State N) (i c : Nat) : Prop := Entry s i c ∧ (s.cos c).status = .dead

theorem dead_step (s next : State N) (reached : Reached s) (dead : Dead s i c)
    (moved : step s label = some next) : label ≠ .resume i ∧ Dead next i c := by
  obtain ⟨here,status⟩ := dead
  obtain ⟨task,entry,rfl⟩ := Option.map_eq_some_iff.mp here
  have notResumed : label ≠ .resume i := by
    rintro rfl
    obtain ⟨other,-,same,suspended,-,-⟩ := resume_step s next reached moved
    rw [entry] at same
    rw [Option.some.inj same,suspended] at status
    contradiction
  have notRunning : ∀ j, s.pc ≠ .running j task.co := by
    intro j runs
    rw [reached.sound.active runs] at status
    contradiction
  obtain ⟨same,co⟩ := step_untouched s next reached.sound moved entry notRunning notResumed
  exact ⟨notResumed,entry_of same,by rw [co]; exact status⟩

theorem dead_run (s t : State N) (reached : Reached s) (dead : Dead s i c)
    (ran : run step s labels = some t) : .resume i ∉ labels := by
  have always : Reached t ∧ Dead t i c ∧ .resume i ∉ labels := by
    refine run_history (fun _ => True)
      (P := fun history s => Reached s ∧ Dead s i c ∧ .resume i ∉ history)
      ⟨reached,dead,nofun⟩ ?_ (fun _ _ => trivial) ran
    rintro history s label next ⟨reached,dead,absent⟩ - moved
    obtain ⟨other,still⟩ := dead_step s next reached dead moved
    refine ⟨reached_step s next reached moved,still,?_⟩
    simp [absent,other.symm]
  exact always.2.2

/-- The task raises an error or returns. -/
def Action.Ends : Action N → Prop
  | .error _ | .finish => True
  | _ => False

omit [Number N] in
theorem waitMove_continues (wait : WaitMove s c before action (frame : Option (Frame N))) :
    ¬action.Ends := by
  cases wait <;> exact id

omit [Number N] in
theorem stopMove_dead (ending : action.Ends)
    (stop : StopMove before action (co : Coroutine N)) : co.status = .dead := by
  cases stop with
  | error | finish => rfl
  | preempt | yield | sleep => exact ending.elim

/-- The coroutine is left dead and nothing else changed. -/
theorem ended_step (s next : State N) (ending : action.Ends)
    (moved : step s (.act c action) = some next) :
    (next.cos c).status = .dead ∧ next.tasks = s.tasks ∧
      ∀ d, d ≠ c → next.cos d = s.cos d := by
  cases step_moves s next moved with
  | work | taskadd | store => exact ending.elim
  | inside _ wait => exact absurd ending (waitMove_continues wait)
  | @back _ _ _ co runs stop =>
    have dead := stopMove_dead ending stop
    exact ⟨by simp [back,State.setCo,dead],rfl,
      fun d other => by simp [back,State.setCo,other]⟩
  | stop => exact ⟨by simp [stop,State.setCo],rfl,fun d other => by simp [stop,State.setCo,other]⟩

omit [Number N] in
theorem stopMove_printable (stop : StopMove before action (co : Coroutine N)) :
    action ≠ .error false := by
  cases stop <;> simp

/-- No task raises an error whose value `print` cannot print. -/
def Printable (labels : List (Label N)) : Prop := ∀ c, .act c (.error false) ∉ labels

theorem printable_run (s t : State N) (going : ∀ i, s.pc ≠ .stopped i)
    (ran : run step s labels = some t) : Printable labels ↔ ∀ i, t.pc ≠ .stopped i := by
  refine run_history (P := fun history t => Printable history ↔ ∀ i, t.pc ≠ .stopped i)
    (fun _ => True) ⟨fun _ => going,fun _ => nofun⟩ ?_ (fun _ _ => trivial) ran
  intro history s label next same _ moved
  constructor
  · intro printable i ended
    rcases step_stopped s next moved ended with before | ⟨c,rfl⟩
    · exact same.mp (fun c member => printable c (List.mem_append_left _ member)) i before
    · exact printable c (by simp)
  · intro going c member
    rcases List.mem_append.mp member with earlier | last
    · refine same.mpr (fun i ended => going i ?_) c earlier
      exact (stopped_step s next ended moved).2
    · obtain rfl := List.mem_singleton.mp last
      cases step_moves s next moved with
      | inside _ wait => exact waitMove_continues wait trivial
      | back _ stop => exact stopMove_printable stop rfl
      | stop => exact going _ rfl

/-- The report of one pass: `labels` are its steps after the sample taken in `first`, up to
any point `t`. -/
structure PassReport (first t : State N) (labels : List (Label N)) : Prop where
  /-- Resumptions follow the list: an added entry comes after all before it. -/
  ordered : (resumed labels).Pairwise (· < ·)
  once : ∀ i, (resumed labels).count i ≤ 1
  /-- An entry of the start of the pass is resumed at its turn if it is ready, else not. -/
  exact : ∀ i < first.tasks.length,
    (resumed labels).count i = 1 ↔ i < walked t ∧ Ready first first.kernelTicks i
  /-- Every such entry has its turn before the loop decides to halt or go on. -/
  finished : t.pc = .decide → first.tasks.length ≤ walked t
  /-- Only an interrupt ends a halt, and nothing else holds the loop up. -/
  goesOn : t.pc = .halted ∨ GoesOn t

theorem Pass.report (s : State N) (moved : Scheduler.step s .sample = some first)
    (pass : Pass first labels t) (going : ∀ i, t.pc ≠ .stopped i) : PassReport s t labels := by
  have distinct : (resumed labels).Nodup := pass.ordered.imp Nat.ne_of_lt
  cases step_moves s first moved with
  | sample from_ =>
    constructor
    · exact pass.ordered
    · exact List.nodup_iff_count_le_one.mp distinct
    · intro i old
      constructor
      · intro once
        have member : i ∈ resumed labels := List.count_pos_iff.mp (by omega)
        have turn := (pass.before member).1
        exact ⟨turn,(pass.exact turn old).mp member⟩
      · rintro ⟨turn,ready⟩
        exact List.nodup_iff_count_eq_one.mp distinct i ((pass.exact turn old).mpr ready)
    · intro last
      simpa [walked,last] using pass.grown
    · by_cases halted : t.pc = .halted
      · exact Or.inl halted
      · exact Or.inr (loop_goes_on t pass.reached halted going)

theorem PassReport.going (report : PassReport s t labels) (i : Nat) :
    (t : State N).pc ≠ .stopped i := by
  intro ended
  rcases report.goesOn with halted | ⟨label,next,notTick,notInterrupt,moved⟩
  · rw [halted] at ended
    contradiction
  · obtain ⟨same | same,-⟩ := stopped_step t next ended moved
    · exact notTick same
    · exact notInterrupt same

/-- A pass goes as it should exactly when every error value raised in it can be printed. -/
theorem scheduler_passes (n ticks : Nat) (earlier : List (Label N)) (s : State N)
    (ran : run step (boot n ticks) earlier = some s) :
    (∀ labels t, run step s (.sample :: labels) = some t → .sample ∉ labels →
      (PassReport s t labels ↔ Printable labels)) ∧
    (∀ i c action later t, s.pc = .running i c → action.Ends →
      run step s (.act c action :: later) = some t → .resume i ∉ later) ∧
    (∀ c printable next, step s (.act c (.error printable)) = some next →
      next.tasks = s.tasks ∧ ∀ d, d ≠ c → next.cos d = s.cos d) := by
  have reached := reached_run _ s (reached_boot n ticks) ran
  refine ⟨?_,?_,?_⟩
  · intro labels t pass one
    obtain ⟨first,moved,ended⟩ := pass_run s t reached pass one
    obtain ⟨_,same,later⟩ := (run_cons s t .sample labels).mp pass
    rw [Option.some.inj (same.symm.trans moved)] at later
    have start : ∀ i, first.pc ≠ .stopped i := by
      cases step_moves s first moved with
      | sample => exact nofun
    rw [printable_run first t start later]
    exact ⟨fun report => report.going,ended.report s moved⟩
  · intro i c action later t from_ ending ended
    obtain ⟨next,moved,after⟩ := (run_cons s t _ later).mp ended
    obtain ⟨dead,tasks,-⟩ := ended_step s next ending moved
    have entry := reached.sound.current from_
    refine dead_run next t (reached_step s next reached moved) ⟨?_,dead⟩ after
    rwa [Entry,tasks]
  · intro c printable next moved
    have ends : (Action.error printable : Action N).Ends := trivial
    exact (ended_step s next ends moved).2

/-- The loop's steps for an entry that is ready, and what the task then does. -/
def turn (i : Nat) (actions : List (Action N)) : List (Label N) :=
  [.scheduler, .scheduler, .scheduler, .scheduler, .resume i] ++ actions.map (.act i)

def busyPass : List (Label Int) :=
  .scheduler :: turn 0 [.taskadd, .error true] ++ turn 1 [.wait 3, .advance, .preempt] ++
    turn 2 [.yield] ++ [.scheduler]

theorem busyPass_report :
    ∃ t : State Int, run step (boot 2 7) (.sample :: busyPass) = some t ∧
      t.pc = .decide ∧ resumed busyPass = [0, 1, 2] ∧ PassReport (boot 2 7) t busyPass := by
  obtain ⟨t,ran,last⟩ : ∃ t : State Int, run step (boot 2 7) (.sample :: busyPass) = some t ∧
      t.pc = .decide := ⟨_,rfl,rfl⟩
  refine ⟨t,ran,last,rfl,?_⟩
  exact ((scheduler_passes 2 7 [] (boot 2 7) rfl).1 busyPass t ran (by simp [busyPass,turn])).mpr
    (by simp [Printable,busyPass,turn])

/-- The first of two tasks raises an error that cannot be printed. -/
def brokenPass : List (Label Int) := .scheduler :: turn 0 [.error false]

/-- The second task is ready and nothing resumes it any more. -/
theorem brokenPass_ends :
    ∃ t : State Int, run step (boot 2 7) (.sample :: brokenPass) = some t ∧ Ready t 7 1 ∧
      walked t ≤ 1 ∧ ¬PassReport (boot 2 7) t brokenPass ∧
      ∀ later u, run step t later = some u → .resume 1 ∉ later := by
  obtain ⟨t,ran,ready,ended⟩ : ∃ t : State Int,
      run step (boot 2 7) (.sample :: brokenPass) = some t ∧ Ready t 7 1 ∧
        t.pc = .stopped 0 := ⟨_,rfl,⟨_,rfl,rfl,by decide⟩,rfl⟩
  refine ⟨t,ran,ready,by simp [walked,ended],fun report => report.going 0 ended,?_⟩
  intro later u after
  have only : u.pc = .stopped 0 ∧ .resume 1 ∉ later := by
    refine run_history (P := fun history u => u.pc = .stopped 0 ∧ .resume 1 ∉ history)
      (fun _ => True) ⟨ended,nofun⟩ ?_ (fun _ _ => trivial) after
    rintro history s label next ⟨ended,absent⟩ - moved
    obtain ⟨only,still⟩ := stopped_step s next ended moved
    refine ⟨still,?_⟩
    rcases only with rfl | rfl <;> simpa using absent
  exact only.2

end LuaKernel.Scheduler
