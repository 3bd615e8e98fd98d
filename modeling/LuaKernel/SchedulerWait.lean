import LuaKernel.SchedulerPass

/-! `wait` under preemption: wherever the hook falls inside it, the store uses a tick no
earlier than the call's, and the loop resumes the task past the yield only when that time
has come. -/
namespace LuaKernel.Scheduler

open Runs

variable {N : Type} [Number N]

omit [Number N] in
theorem waitMove_call (move : WaitMove s c before (.wait n) (frame : Option (Frame N))) :
    frame = some ⟨n, .enter⟩ := by
  cases move
  rfl

omit [Number N] in
/-- Calling `wait` and returning from it keep control. -/
theorem stopMove_action (stop : StopMove before action (co : Coroutine N)) :
    (∀ n, action ≠ .wait n) ∧ action ≠ .leave := by
  cases stop <;> simp

/-- What is known at a place of `wait(n)` called at tick `called`, for the task at position
`j` of the list, when the loop has sampled `sampled`. -/
def Keeps (called : Nat) (n : N) (j : Nat) (tasks : List (Task N)) (sampled : Nat)
    (status : Status) : Place → Prop
  | .enter | .found _ => True
  | .scan k => k ≤ j
  | .loaded _ now => called ≤ now
  | .leaving => ∃ task, tasks[j]? = some task ∧ ofTicks called + n ≤ task.waitUntil
  | .yielded => ∃ task, tasks[j]? = some task ∧ ofTicks called + n ≤ task.waitUntil ∧
      (status = .running → ofTicks called + n ≤ ofTicks sampled)

/-- Coroutine `c`, of the task at position `j`, is inside that call. -/
structure InWait (called : Nat) (n : N) (c j : Nat) (s : State N) : Prop where
  entry : Entry s j c
  since : called ≤ s.timerTicks
  inside : ∃ place, (s.cos c).wait = some ⟨n, place⟩ ∧
    Keeps called n j s.tasks s.timerTicks (s.cos c).status place

theorem step_since (s next : State N) (reached : Reached s) (moved : step s label = some next) :
    s.timerTicks ≤ next.timerTicks := by
  cases step_moves s next moved
  case sample => exact reached.clock
  all_goals exact Nat.le_refl _

theorem step_entry (s next : State N) (moved : step s label = some next) (entry : Entry s j c) :
    Entry next j c := by
  cases step_moves s next moved
  case taskadd => exact (taskadd_entry s j c).mpr (Or.inl entry)
  case store => exact (modify_entry s _ j c _ _).mpr entry
  all_goals exact entry

section Steps

variable {called c j : Nat} {n : N} (s next : State N) (reached : Reached s)
  (wait : InWait called n c j s)

include reached wait

/-- While others run, or nobody, the task's record and place stay. -/
theorem inWait_untouched (moved : step s label = some next)
    (notRunning : ∀ i, s.pc ≠ .running i c) (notResumed : label ≠ .resume j) :
    InWait called n c j next := by
  obtain ⟨entry,since,place,frame,keeps⟩ := wait
  have later := step_since s next reached moved
  have settled := reached.sound.settled entry notRunning
  have entry' := step_entry s next moved entry
  obtain ⟨task,found,rfl⟩ := Option.map_eq_some_iff.mp entry
  obtain ⟨same,co⟩ := step_untouched s next reached.sound moved found notRunning notResumed
  refine ⟨entry',by omega,place,by rw [co]; exact frame,?_⟩
  rw [co]
  cases place with
  | enter | found | scan | loaded => exact keeps
  | leaving =>
    obtain ⟨other,record,late⟩ := keeps
    exact ⟨task,same,by rw [found] at record; exact Option.some.inj record ▸ late⟩
  | yielded =>
    obtain ⟨other,record,late,-⟩ := keeps
    refine ⟨task,same,by rw [found] at record; exact Option.some.inj record ▸ late,?_⟩
    intro running
    rcases settled with suspended | dead <;> simp_all

/-- The loop resumes the task only when its `wait_until` has come. -/
theorem inWait_resume (moved : step s (.resume j) = some next) : InWait called n c j next := by
  obtain ⟨entry,since,place,frame,keeps⟩ := wait
  have entry' := step_entry s next moved entry
  obtain ⟨task,found,rfl⟩ := Option.map_eq_some_iff.mp entry
  obtain ⟨other,-,same,-,due,rfl⟩ := resume_step s next reached moved
  rw [found] at same
  obtain rfl := Option.some.inj same
  refine ⟨entry',since,place,by simpa [State.setCo] using frame,?_⟩
  cases place with
  | enter | found | scan | loaded | leaving => exact keeps
  | yielded =>
    obtain ⟨other,record,late,-⟩ := keeps
    refine ⟨other,record,late,fun _ => ?_⟩
    rw [found] at record
    obtain rfl := Option.some.inj record
    exact Number.le_trans late due

omit reached in
theorem waitMove_keeps (move : WaitMove s c (some ⟨n, place⟩) action after)
    (keeps : Keeps called n j s.tasks s.timerTicks (s.cos c).status place)
    (notLeave : action ≠ .leave) :
    ∃ later, after = some ⟨n, later⟩ ∧ Keeps called n j s.tasks s.timerTicks .running later := by
  obtain ⟨task,found,mine⟩ := Option.map_eq_some_iff.mp wait.entry
  cases move with
  | enter => exact ⟨_,rfl,Nat.zero_le j⟩
  | @miss k _ past =>
    have beyond : s.tasks.length ≤ k := by simpa using past
    have inside : j < s.tasks.length := (List.getElem?_eq_some_iff.mp found).1
    exact absurd (Nat.le_trans beyond keeps) (by omega)
  | @pass k other _ record different =>
    refine ⟨_,rfl,?_⟩
    have elsewhere : k ≠ j := by
      rintro rfl
      rw [found] at record
      exact different (Option.some.inj record ▸ mine)
    exact Nat.lt_of_le_of_ne keeps elsewhere
  | own => exact ⟨_,rfl,trivial⟩
  | load => exact ⟨_,rfl,wait.since⟩
  | leave => contradiction

omit reached wait in
theorem stopMove_keeps (stop : StopMove (some ⟨n, place⟩) action co)
    (keeps : Keeps called n j s.tasks s.timerTicks status place) :
    ∃ later, co.wait = some ⟨n, later⟩ ∧
      Keeps called n j s.tasks s.timerTicks co.status later := by
  cases stop with
  | sleep =>
    obtain ⟨task,record,late⟩ := keeps
    exact ⟨_,rfl,task,record,late,nofun⟩
  | preempt | error =>
    refine ⟨place,rfl,?_⟩
    cases place with
    | enter | found | scan | loaded | leaving => exact keeps
    | yielded =>
      obtain ⟨task,record,late,-⟩ := keeps
      exact ⟨task,record,late,nofun⟩

theorem inWait_act (nonneg : ofTicks 0 ≤ n) (moved : step s (.act c action) = some next)
    (notLeave : action ≠ .leave) : InWait called n c j next := by
  obtain ⟨entry,since,place,frame,keeps⟩ := id wait
  have entry' := step_entry s next moved entry
  cases step_moves s next moved with
  | work _ own => simp [frame] at own
  | taskadd _ own => simp [frame] at own
  | @inside _ _ _ after from_ move =>
    rw [frame] at move
    obtain ⟨later,rfl,kept⟩ := waitMove_keeps s wait move keeps notLeave
    exact ⟨entry',since,later,by simp [State.setCo],by simpa [State.setCo] using kept⟩
  | @store _ _ ticks k now from_ stored =>
    rw [frame] at stored
    obtain ⟨rfl,rfl⟩ := by simpa using stored
    obtain rfl := reached.sound.distinct (reached.sound.located frame rfl) entry
    obtain ⟨task,found,-⟩ := Option.map_eq_some_iff.mp entry
    refine ⟨entry',since,.leaving,by simp [State.setCo],?_⟩
    exact ⟨_,by simp [found]; rfl,Number.add_mono keeps nonneg⟩
  | back from_ stop =>
    rw [frame] at stop
    obtain ⟨later,rest,kept⟩ := stopMove_keeps s stop keeps
    exact ⟨entry',since,later,by simpa [back,State.setCo] using rest,
      by simpa [back,State.setCo] using kept⟩
  | stop from_ =>
    obtain ⟨later,rest,kept⟩ := stopMove_keeps s .error keeps
    refine ⟨entry',since,later,?_,by simpa [stop,State.setCo] using kept⟩
    simpa [stop,State.setCo,frame] using rest

theorem inWait_step (nonneg : ofTicks 0 ≤ n) (moved : step s label = some next)
    (notLeave : label ≠ .act c .leave) : InWait called n c j next := by
  by_cases own : ∃ i, s.pc = .running i c
  · obtain ⟨i,runs⟩ := own
    obtain ⟨entry,since,place,frame,keeps⟩ := id wait
    cases step_moves s next moved
    case tick | interrupt => exact ⟨entry,since,place,frame,keeps⟩
    case work | taskadd | inside | store | back =>
      rename_i from_ _
      obtain rfl := same_running runs from_
      exact inWait_act s _ reached wait nonneg moved (fun same => notLeave (same ▸ rfl))
    case stop from_ =>
      obtain rfl := same_running runs from_
      exact inWait_act s _ reached wait nonneg moved nofun
    all_goals simp_all
  · have notRunning : ∀ i, s.pc ≠ .running i c := fun i runs => own ⟨i,runs⟩
    by_cases mine : label = .resume j
    · subst mine
      exact inWait_resume s next reached wait moved
    · exact inWait_untouched s next reached wait moved notRunning mine

end Steps

theorem inWait_call (s next : State N) (reached : Reached s)
    (moved : step s (.act c (.wait n)) = some next) :
    ∃ j, InWait s.timerTicks n c j next := by
  cases step_moves s next moved with
  | @inside i _ _ frame from_ move =>
    have frame' : frame = some ⟨n, .enter⟩ := waitMove_call move
    subst frame'
    exact ⟨i,reached.sound.current from_,Nat.le_refl _,.enter,by simp [State.setCo],trivial⟩
  | back from_ stop => exact absurd rfl ((stopMove_action stop).1 n)

theorem leave_late (s next : State N) (reached : Reached s) (wait : InWait called n c j s)
    (moved : step s (.act c .leave) = some next) :
    ofTicks called + n ≤ ofTicks s.timerTicks := by
  obtain ⟨_,_,place,frame,keeps⟩ := wait
  cases step_moves s next moved with
  | inside from_ move =>
    rw [frame] at move
    cases move with
    | leave =>
      obtain ⟨_,_,_,late⟩ := keeps
      exact late (reached.sound.active from_)
  | back from_ stop => exact absurd rfl (stopMove_action stop).2

/-- A call `wait(n)` returns only when the tick the loop has sampled is at least `n` past the
one at the call. -/
theorem wait_returns_after (boots ticks : Nat) (earlier labels : List (Label N))
    (s t u : State N) (c : Nat) (n : N) (nonneg : ofTicks 0 ≤ n)
    (ran : run step (boot boots ticks) earlier = some s)
    (called : run step s (.act c (.wait n) :: labels) = some t)
    (first : .act c .leave ∉ labels) (returned : step t (.act c .leave) = some u) :
    ofTicks s.timerTicks + n ≤ ofTicks t.timerTicks := by
  have reached := reached_run _ s (reached_boot boots ticks) ran
  obtain ⟨next,moved,later⟩ := (run_cons s t _ labels).mp called
  obtain ⟨j,start⟩ := inWait_call s next reached moved
  have atReturn : Reached t ∧ InWait s.timerTicks n c j t := by
    refine run_history (· ≠ .act c .leave)
      (P := fun _ t => Reached t ∧ InWait s.timerTicks n c j t)
      ⟨reached_step s next reached moved,start⟩ ?_ (by rintro _ member rfl; exact first member)
      later
    rintro _ s label next ⟨reached,wait⟩ notLeave moved
    exact ⟨reached_step s next reached moved,
      inWait_step s next reached wait nonneg moved notLeave⟩
  exact leave_late t u atReturn.1 atReturn.2 returned

/-- From the end of one turn of the only task to its next, with a tick in between. -/
def nextTurn (actions : List (Action Int)) : List (Label Int) :=
  [.scheduler, .scheduler, .tick, .sample, .scheduler] ++ turn 0 actions

/-- The hook fires in the scan, between the read and the store, and before the yield. -/
def preemptedWait : List (Label Int) :=
  [.act 0 .advance, .act 0 .preempt] ++ nextTurn [.advance, .advance, .preempt] ++
    nextTurn [.advance, .preempt] ++ nextTurn [.advance] ++ nextTurn []

theorem wait_two_preempted :
    ∃ s t u : State Int, run step (boot 1 0) (.sample :: .scheduler :: turn 0 []) = some s ∧
      run step s (.act 0 (.wait 2) :: preemptedWait) = some t ∧
      step t (.act 0 .leave) = some u ∧
      (ofTicks s.timerTicks + 2 : Int) ≤ ofTicks t.timerTicks := by
  obtain ⟨s,t,u,ran,called,returned⟩ : ∃ s t u : State Int,
      run step (boot 1 0) (.sample :: .scheduler :: turn 0 []) = some s ∧
      run step s (.act 0 (.wait 2) :: preemptedWait) = some t ∧
      step t (.act 0 .leave) = some u := ⟨_,_,_,rfl,rfl,rfl⟩
  refine ⟨s,t,u,ran,called,returned,?_⟩
  exact wait_returns_after 1 0 _ preemptedWait s t u 0 2 (by decide) ran called
    (by simp [preemptedWait,nextTurn,turn]) returned

end LuaKernel.Scheduler
