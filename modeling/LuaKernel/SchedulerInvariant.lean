import LuaKernel.Scheduler

/-! What every run of the scheduler keeps: each task has its own coroutine, only the resumed
one runs, and `wait` stores into the record of the task that called it. -/
namespace LuaKernel.Scheduler

open Runs

variable {N : Type} [Number N]

/-- The list position a step of `wait` has found, before it stores. -/
def Place.target : Place → Option Nat
  | .found j | .loaded j _ => some j
  | _ => none

/-- The entry at position `i` is the one of coroutine `c`. -/
def Entry (s : State N) (i c : Nat) : Prop := (s.tasks[i]?.map (·.co)) = some c

structure Sound (s : State N) : Prop where
  distinct : ∀ {i j c}, Entry s i c → Entry s j c → i = j
  fresh : ∀ {i c}, Entry s i c → c < s.created
  /-- Only the coroutine the loop has resumed runs. -/
  settled : ∀ {i c}, Entry s i c → (∀ j, s.pc ≠ .running j c) →
    (s.cos c).status = .suspended ∨ (s.cos c).status = .dead
  current : ∀ {i c}, s.pc = .running i c → Entry s i c
  active : ∀ {i c}, s.pc = .running i c → (s.cos c).status = .running
  located : ∀ {c frame j}, (s.cos c).wait = some frame → frame.place.target = some j →
    Entry s j c

omit [Number N] in
/-- A step that leaves list and coroutines alone and resumes nothing. -/
theorem Sound.moved (sound : Sound s) (next : State N) (tasks : next.tasks = s.tasks)
    (cos : next.cos = s.cos) (created : next.created = s.created)
    (same : ∀ i c, next.pc = .running i c ↔ s.pc = .running i c) : Sound next := by
  have entries : ∀ i c, Entry next i c ↔ Entry s i c := by simp [Entry,tasks]
  constructor
  · intro i j c first second
    exact sound.distinct ((entries i c).mp first) ((entries j c).mp second)
  · intro i c entry
    rw [created]
    exact sound.fresh ((entries i c).mp entry)
  · intro i c entry notRunning
    rw [cos]
    exact sound.settled ((entries i c).mp entry) fun j runs => notRunning j ((same j c).mpr runs)
  · intro i c runs
    exact (entries i c).mpr (sound.current ((same i c).mp runs))
  · intro i c runs
    rw [cos]
    exact sound.active ((same i c).mp runs)
  · intro c frame j wait target
    rw [cos] at wait
    exact (entries j c).mpr (sound.located wait target)

omit [Number N] in
/-- A step that changes coroutine `c`, and the list only in its `wait_until`s. -/
theorem Sound.update (sound : Sound s) (next : State N) (c : Nat) (co : Coroutine N)
    (entries : ∀ i d, Entry next i d ↔ Entry s i d) (created : next.created = s.created)
    (cos : next.cos = Function.update s.cos c co)
    (current : ∀ i d, next.pc = .running i d → Entry s i d ∧ d = c ∧ co.status = .running)
    (stopped : (∀ i, next.pc ≠ .running i c) → co.status = .suspended ∨ co.status = .dead)
    (others : ∀ i d, s.pc = .running i d → d = c)
    (located : ∀ frame j, co.wait = some frame → frame.place.target = some j → Entry s j c) :
    Sound next := by
  constructor
  · intro i j d first second
    exact sound.distinct ((entries i d).mp first) ((entries j d).mp second)
  · intro i d entry
    rw [created]
    exact sound.fresh ((entries i d).mp entry)
  · intro i d entry notRunning
    by_cases same : d = c
    · subst d
      simpa [cos] using stopped notRunning
    · rw [cos,Function.update_of_ne same]
      exact sound.settled ((entries i d).mp entry) fun j runs => same (others j d runs)
  · intro i d runs
    exact (entries i d).mpr (current i d runs).1
  · intro i d runs
    obtain ⟨-,rfl,running⟩ := current i d runs
    simpa [cos] using running
  · intro d frame j wait target
    by_cases same : d = c
    · subst d
      rw [cos,Function.update_self] at wait
      exact (entries j c).mpr (located frame j wait target)
    · rw [cos,Function.update_of_ne same] at wait
      exact (entries j d).mpr (sound.located wait target)

theorem taskadd_entry (s : State N) (i c : Nat) :
    Entry (taskadd s) i c ↔ Entry s i c ∨ (i = s.tasks.length ∧ c = s.created) := by
  simp only [Entry,taskadd,List.getElem?_append]
  split
  · rename_i inside
    have : i ≠ s.tasks.length := by omega
    simp [this]
  · rename_i outside
    have none : s.tasks[i]? = none := by simp; omega
    by_cases last : i = s.tasks.length
    · simp [last,eq_comm]
    · have : i - s.tasks.length ≠ 0 := by omega
      simp [none,last,this]

theorem Sound.taskadd (sound : Sound s) : Sound (taskadd s : State N) := by
  have older : ∀ {i c}, Entry s i c → c ≠ s.created := fun entry =>
    Nat.ne_of_lt (sound.fresh entry)
  have kept : ∀ {i c}, Entry s i c → Entry (Scheduler.taskadd s) i c := fun entry =>
    (taskadd_entry s _ _).mpr (Or.inl entry)
  constructor
  · intro i j c first second
    rcases (taskadd_entry s i c).mp first with first | ⟨rfl,rfl⟩
    · rcases (taskadd_entry s j c).mp second with second | ⟨-,new⟩
      · exact sound.distinct first second
      · exact absurd new (older first)
    · rcases (taskadd_entry s j s.created).mp second with second | ⟨rfl,-⟩
      · exact absurd rfl (older second)
      · rfl
  · intro i c entry
    rcases (taskadd_entry s i c).mp entry with entry | ⟨-,rfl⟩
    · exact Nat.lt_succ_of_lt (sound.fresh entry)
    · exact Nat.lt_succ_self _
  · intro i c entry notRunning
    rcases (taskadd_entry s i c).mp entry with entry | ⟨-,rfl⟩
    · simpa [Scheduler.taskadd,Function.update_of_ne (older entry)] using
        sound.settled entry notRunning
    · simp [Scheduler.taskadd]
  · intro i c runs
    exact kept (sound.current runs)
  · intro i c runs
    simpa [Scheduler.taskadd,Function.update_of_ne (older (sound.current runs))] using
      sound.active runs
  · intro c frame j wait target
    by_cases new : c = s.created
    · simp [Scheduler.taskadd,new] at wait
    · simp only [Scheduler.taskadd,Function.update_of_ne new] at wait
      exact kept (sound.located wait target)

omit [Number N] in
theorem modify_entry (s : State N) (j i c : Nat) (value : N) (cos : Nat → Coroutine N) :
    Entry { s with cos := cos
                   tasks := s.tasks.modify j fun task => { task with waitUntil := value } } i c ↔
      Entry s i c := by
  simp only [Entry,List.getElem?_modify]
  cases s.tasks[i]? with
  | none => simp
  | some task => by_cases here : j = i <;> simp [here]

theorem waitMove_located (sound : Sound s) (wait : WaitMove s c (s.cos c).wait action frame)
    (held : frame = some next) (target : next.place.target = some j) : Entry s j c := by
  generalize own : (s.cos c).wait = before at wait
  subst held
  cases wait with
  | call | enter | miss _ | pass _ _ => contradiction
  | own entry same =>
    obtain rfl := Option.some.inj target
    simp [Entry,entry,same]
  | load => exact sound.located own target

theorem stopMove_status (stop : StopMove wait action co) :
    co.status = .suspended ∨ co.status = .dead := by
  cases stop <;> simp

theorem stopMove_located (sound : Sound s) (stop : StopMove (s.cos c).wait action co)
    (held : co.wait = some next) (target : next.place.target = some j) : Entry s j c := by
  generalize own : (s.cos c).wait = before at stop
  cases stop with
  | preempt | error => exact sound.located (own.trans held) target
  | yield | finish => contradiction
  | sleep =>
    obtain rfl := Option.some.inj held
    contradiction

omit [Number N] in
theorem same_running (from_ : (s : State N).pc = .running i c) (runs : s.pc = .running j d) :
    d = c := by
  rw [from_] at runs
  cases runs
  rfl

theorem sound_boot (n ticks : Nat) : Sound (boot n ticks : State N) := by
  have entries : ∀ i c, Entry (boot n ticks : State N) i c ↔ i < n ∧ i = c := by
    intro i c
    by_cases inside : i < n <;> simp [Entry,boot,inside]
  constructor
  · intro i j c first second
    rw [((entries i c).mp first).2,((entries j c).mp second).2]
  · intro i c entry
    obtain ⟨inside,rfl⟩ := (entries i c).mp entry
    exact inside
  · exact fun _ _ => Or.inl rfl
  · intro i c runs
    contradiction
  · intro i c runs
    contradiction
  · intro c frame j wait
    contradiction

theorem sound_step (s next : State N) (sound : Sound s) (moved : step s label = some next) :
    Sound next := by
  cases step_moves s next moved
  case tick | interrupt =>
    refine sound.moved _ rfl rfl rfl fun i c => ?_
    cases s.pc <;> simp [wake]
  case sample from_ | reset from_ | mark from_ | halt from_ =>
    exact sound.moved _ rfl rfl rfl (by simp [from_])
  case enter from_ _ | exhausted from_ _ | again from_ _ | idle from_ _ =>
    exact sound.moved _ rfl rfl rfl (by simp [from_])
  case alive from_ _ _ | skip from_ _ _ | due from_ _ _ | early from_ _ _ | refuse from_ _ _ =>
    exact sound.moved _ rfl rfl rfl (by simp [from_])
  case work => exact sound
  case taskadd => exact sound.taskadd
  case resume i task from_ entry status =>
    have here : Entry s i task.co := by simp [Entry,entry]
    refine sound.update _ task.co _ (by simp [Entry,State.setCo]) rfl rfl ?_ ?_ ?_ ?_
    · intro j d runs
      obtain ⟨rfl,rfl⟩ := by simpa using runs
      exact ⟨here,rfl,rfl⟩
    · exact fun notRunning => absurd rfl (notRunning i)
    · simp [from_]
    · intro frame j wait target
      exact sound.located wait target
  case inside i c action frame from_ wait =>
    refine sound.update _ c _ (by simp [Entry,State.setCo]) rfl rfl ?_ ?_ ?_ ?_
    · intro j d runs
      exact ⟨sound.current runs,same_running from_ runs,rfl⟩
    · exact fun notRunning => absurd from_ (notRunning i)
    · simp [from_]
    · intro next j held target
      exact waitMove_located sound wait held target
  case store i c ticks j now from_ frame =>
    refine sound.update _ c _ (fun i d => modify_entry s j i d _ _) rfl rfl ?_ ?_ ?_ ?_
    · intro j d runs
      exact ⟨sound.current runs,same_running from_ runs,rfl⟩
    · exact fun notRunning => absurd from_ (notRunning i)
    · simp [from_]
    · intro next l held target
      obtain rfl := Option.some.inj held
      contradiction
  case back i c action co from_ stop =>
    refine sound.update _ c co (by simp [Entry,State.setCo,back]) rfl rfl ?_ ?_ ?_ ?_
    · simp [back]
    · exact fun _ => stopMove_status stop
    · simp [from_]
    · intro frame j held target
      exact stopMove_located sound stop held target
  case stop i c from_ =>
    refine sound.update _ c _ (by simp [Entry,State.setCo,stop]) rfl rfl ?_ ?_ ?_ ?_
    · simp [stop]
    · exact fun _ => Or.inr rfl
    · simp [from_]
    · intro frame j held target
      exact sound.located held target

omit [Number N] in
theorem entry_of (entry : s.tasks[j]? = some task) : Entry (s : State N) j task.co := by
  simp [Entry,entry]

theorem step_untouched (s next : State N) (sound : Sound s) (moved : step s label = some next)
    (entry : s.tasks[j]? = some task) (notRunning : ∀ i, s.pc ≠ .running i task.co)
    (notResumed : label ≠ .resume j) :
    next.tasks[j]? = some task ∧ next.cos task.co = s.cos task.co := by
  have here := entry_of entry
  cases step_moves s next moved
  case resume i other from_ chosen status =>
    have different : task.co ≠ other.co := by
      intro same
      obtain rfl := sound.distinct (entry_of chosen) (same ▸ here)
      exact notResumed rfl
    exact ⟨entry,by simp [State.setCo,different]⟩
  case taskadd =>
    have inside : j < s.tasks.length := (List.getElem?_eq_some_iff.mp entry).1
    have older := Nat.ne_of_lt (sound.fresh here)
    exact ⟨by rw [taskadd,List.getElem?_append_left inside,entry],by simp [taskadd,older]⟩
  case inside i c action frame from_ wait =>
    have different : task.co ≠ c := fun same => notRunning i (same ▸ from_)
    exact ⟨entry,by simp [State.setCo,different]⟩
  case store i c ticks l now from_ frame =>
    have different : task.co ≠ c := fun same => notRunning i (same ▸ from_)
    have elsewhere : l ≠ j := by
      rintro rfl
      have target := sound.located frame rfl
      simp only [Entry,entry,Option.map_some,Option.some.injEq] at target
      exact different target
    exact ⟨by simp [elsewhere,entry],by simp [State.setCo,different]⟩
  case back i c action co from_ stop =>
    have different : task.co ≠ c := fun same => notRunning i (same ▸ from_)
    exact ⟨entry,by simp [back,State.setCo,different]⟩
  case stop i c from_ =>
    have different : task.co ≠ c := fun same => notRunning i (same ▸ from_)
    exact ⟨entry,by simp [stop,State.setCo,different]⟩
  all_goals exact ⟨entry,rfl⟩

def Pc.candidate : Pc → Option Nat
  | .compare i | .ready i | .resume i => some i
  | _ => none

def Pc.chosen : Pc → Option Nat
  | .ready i | .resume i => some i
  | _ => none

structure Chosen (s : State N) : Prop where
  inside : ∀ {i}, s.pc = .test i → i < s.tasks.length
  suspended : ∀ {i}, s.pc.candidate = some i →
    ∃ task, s.tasks[i]? = some task ∧ (s.cos task.co).status = .suspended
  due : ∀ {i}, s.pc.chosen = some i →
    ∃ task, s.tasks[i]? = some task ∧ task.waitUntil ≤ ofTicks s.timerTicks

theorem chosen_nowhere (s : State N) (candidate : s.pc.candidate = none)
    (chosen : s.pc.chosen = none) (notTest : ∀ i, s.pc ≠ .test i) : Chosen s :=
  ⟨fun here => absurd here (notTest _),by simp [candidate],by simp [chosen]⟩

theorem chosen_running (s : State N) (runs : s.pc = .running i c) : Chosen s :=
  chosen_nowhere s (by rw [runs]; rfl) (by rw [runs]; rfl) (by rw [runs]; nofun)

theorem wake_test (pc : Pc) : wake pc = .test i ↔ pc = .test i := by
  cases pc <;> simp [wake]

@[simp] theorem wake_candidate (pc : Pc) : (wake pc).candidate = pc.candidate := by
  cases pc <;> rfl

@[simp] theorem wake_chosen (pc : Pc) : (wake pc).chosen = pc.chosen := by
  cases pc <;> rfl

theorem chosen_step (s next : State N) (sound : Sound s) (chosen : Chosen s)
    (moved : step s label = some next) : Chosen next := by
  cases step_moves s next moved
  case tick | interrupt =>
    exact ⟨fun here => chosen.inside ((wake_test s.pc).mp here),
      fun here => chosen.suspended (by simpa using here),
      fun here => chosen.due (by simpa using here)⟩
  case sample | reset | exhausted | skip | early | again | idle | halt | refuse | resume |
      back | stop => exact chosen_nowhere _ rfl rfl nofun
  case enter i from_ inside =>
    refine ⟨fun here => ?_,nofun,nofun⟩
    cases here
    exact inside
  case alive i task from_ entry status =>
    have suspended : (s.cos task.co).status = .suspended := by
      rcases sound.settled (entry_of entry) (by simp [from_]) with suspended | dead
      · exact suspended
      · simp [dead] at status
    refine ⟨nofun,fun here => ?_,nofun⟩
    obtain rfl := Option.some.inj here
    exact ⟨task,entry,suspended⟩
  case due i task from_ entry reached =>
    refine ⟨nofun,fun here => chosen.suspended (by rw [from_]; exact here),fun here => ?_⟩
    obtain rfl := Option.some.inj here
    exact ⟨task,entry,reached⟩
  case mark i from_ =>
    exact ⟨nofun,fun here => chosen.suspended (by rw [from_]; exact here),
      fun here => chosen.due (by rw [from_]; exact here)⟩
  case work => exact chosen
  case taskadd from_ _ => exact chosen_running _ from_
  case inside from_ _ => exact chosen_running _ from_
  case store from_ _ => exact chosen_running _ from_

/-- The global never runs ahead of the counter it is read from. -/
theorem clock_step (s next : State N) (clock : s.timerTicks ≤ s.kernelTicks)
    (moved : step s label = some next) : next.timerTicks ≤ next.kernelTicks := by
  cases step_moves s next moved
  case tick => exact Nat.le_succ_of_le clock
  case sample => exact Nat.le_refl _
  all_goals exact clock

structure Reached (s : State N) : Prop where
  sound : Sound s
  chosen : Chosen s
  clock : s.timerTicks ≤ s.kernelTicks

theorem reached_boot (n ticks : Nat) : Reached (boot n ticks : State N) :=
  ⟨sound_boot n ticks,chosen_nowhere _ rfl rfl nofun,Nat.zero_le ticks⟩

theorem reached_step (s next : State N) (reached : Reached s)
    (moved : step s label = some next) : Reached next :=
  ⟨sound_step s next reached.sound moved,chosen_step s next reached.sound reached.chosen moved,
    clock_step s next reached.clock moved⟩

theorem reached_run (s t : State N) (reached : Reached s) (ran : run step s labels = some t) :
    Reached t :=
  run_invariant (fun s _ next reached moved => reached_step s next reached moved) ran reached

theorem Reached.selected (reached : Reached (s : State N)) (from_ : s.pc = .resume i)
    (entry : s.tasks[i]? = some task) :
    (s.cos task.co).status = .suspended ∧ task.waitUntil ≤ ofTicks s.timerTicks := by
  obtain ⟨_,same,suspended⟩ := reached.chosen.suspended (i := i) (by rw [from_]; rfl)
  obtain ⟨_,same',due⟩ := reached.chosen.due (i := i) (by rw [from_]; rfl)
  rw [entry] at same same'
  obtain rfl := Option.some.inj same
  obtain rfl := Option.some.inj same'
  exact ⟨suspended,due⟩

/-- A resumption is of a suspended task whose time has come, and never refused. -/
theorem resume_step (s next : State N) (reached : Reached s)
    (moved : step s (.resume i) = some next) :
    ∃ task, s.pc = .resume i ∧ s.tasks[i]? = some task ∧
      (s.cos task.co).status = .suspended ∧ task.waitUntil ≤ ofTicks s.timerTicks ∧
      next = { s.setCo task.co ⟨.running, (s.cos task.co).wait⟩ with
        pc := .running i task.co } := by
  cases step_moves s next moved with
  | resume from_ entry status => exact ⟨_,from_,entry,status,(reached.selected from_ entry).2,rfl⟩
  | refuse from_ entry status => exact absurd (reached.selected from_ entry).1 status

/-- Without an interrupt the loop has a step of its own, or the hook can take control back from
the running task. -/
def GoesOn (s : State N) : Prop :=
  ∃ label next, label ≠ .tick ∧ label ≠ .interrupt ∧ step s label = some next

theorem loop_goes_on (s : State N) (reached : Reached s) (notHalted : s.pc ≠ .halted)
    (notStopped : ∀ i, s.pc ≠ .stopped i) : GoesOn s := by
  cases from_ : s.pc with
  | sample => exact ⟨.sample,_,by simp,by simp,if_pos from_⟩
  | reset | next | ready | decide | hlt =>
    exact ⟨.scheduler,_,by simp,by simp,by simp [step,schedulerStep,from_]; rfl⟩
  | test i =>
    have inside := reached.chosen.inside from_
    exact ⟨.scheduler,_,by simp,by simp,by simp [step,schedulerStep,from_,inside]; rfl⟩
  | compare i =>
    obtain ⟨task,entry,-⟩ := reached.chosen.suspended (i := i) (by rw [from_]; rfl)
    exact ⟨.scheduler,_,by simp,by simp,by simp [step,schedulerStep,from_,entry]; rfl⟩
  | resume i =>
    obtain ⟨task,entry,-⟩ := reached.chosen.suspended (i := i) (by rw [from_]; rfl)
    exact ⟨.resume i,_,by simp,by simp,by simp [step,resume,from_,entry]; rfl⟩
  | running i c => exact ⟨.act c .preempt,_,by simp,by simp,by simp [step,from_,taskStep]; rfl⟩
  | halted => exact absurd from_ notHalted
  | stopped i => exact absurd from_ (notStopped i)

/-- Once the loop has ended only interrupts happen. -/
theorem stopped_step (s next : State N) (ended : s.pc = .stopped i)
    (moved : step s label = some next) :
    (label = .tick ∨ label = .interrupt) ∧ next.pc = .stopped i := by
  cases step_moves s next moved
  case tick | interrupt => simp [ended,wake]
  all_goals simp_all

/-- It ends at an error whose value cannot be printed, and at no other step. -/
theorem step_stopped (s next : State N) (moved : step s label = some next)
    (ended : next.pc = .stopped i) :
    s.pc = .stopped i ∨ ∃ c, label = .act c (.error false) := by
  cases step_moves s next moved
  case tick | interrupt =>
    cases from_ : s.pc <;> simp_all [wake]
  case stop c _ => exact Or.inr ⟨c,rfl⟩
  case work => exact Or.inl ended
  case taskadd from_ _ | inside from_ _ | store from_ _ =>
    exact absurd (from_.symm.trans ended) nofun
  all_goals contradiction

end LuaKernel.Scheduler
