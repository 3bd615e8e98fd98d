import LuaKernel.Coroutines

/-! Is preemption invisible to a task? The run under the hook that `taskadd` sets is compared
with the run of the same body without it, by forgetting the hooks. -/
namespace LuaKernel.Coroutines

open Stutter

variable {σ V E G : Type}

def erase (m : Machine σ V E G) : Machine σ V E G :=
  { m with threads := fun c => { m.threads c with hook := none }, hooks := 0 }

def observe (m : Machine σ V E G) : List E × Option (Outcome V) := (m.effects, m.result)

theorem observe_erase (m : Machine σ V E G) : observe (erase m) = observe m := rfl

theorem erase_setThread (m : Machine σ V E G) (c : Nat) (thread : Thread σ V) :
    erase (setThread m c thread) = setThread (erase m) c { thread with hook := none } := by
  simp only [erase,setThread,Machine.mk.injEq,and_self,and_true]
  funext d
  by_cases same : d = c
  · simp [same]
  · simp [same]

@[simp] theorem erase_setLife (m : Machine σ V E G) (c : Nat) (life : Life σ V) :
    erase (setLife m c life) = setLife (erase m) c life := erase_setThread m c _

@[simp] theorem erase_setBoundary (m : Machine σ V E G) (c boundary : Nat) :
    erase (setBoundary m c boundary) = setBoundary (erase m) c boundary := erase_setThread m c _

@[simp] theorem erase_setHook (m : Machine σ V E G) (c : Nat) (hook : Option Hook) :
    erase (setHook m c hook) = erase m := by
  rw [setHook,erase_setThread]
  simp [setThread,erase]

@[simp] theorem erase_setShared (m : Machine σ V E G) (shared : G) :
    erase (setShared m shared) = setShared (erase m) shared := rfl

@[simp] theorem erase_setStack (m : Machine σ V E G) (stack : List Nat) :
    erase (setStack m stack) = setStack (erase m) stack := rfl

theorem erase_life (m : Machine σ V E G) (c : Nat) :
    ((erase m).threads c).life = (m.threads c).life := rfl

theorem erase_boundary (m : Machine σ V E G) (c : Nat) :
    ((erase m).threads c).boundary = (m.threads c).boundary := rfl

@[simp] theorem erase_give (m : Machine σ V E G) (rest : List Nat) (outcome : Outcome V) :
    erase (give m rest outcome) = give (erase m) rest outcome := by
  cases rest with
  | nil => rfl
  | cons r others =>
    simp only [give,erase_life]
    cases (m.threads r).life with
    | resuming next => simp
    | ready | yielded | dead => rfl

variable (L : Language σ V E G) (O : Others G)

@[simp] theorem erase_raise (m : Machine σ V E G) (c : Nat) (rest : List Nat) (code : σ)
    (value : V) : erase (raise L m c rest code value) = raise L (erase m) c rest code value := by
  unfold raise
  cases L.handler code value with
  | none => simp
  | some found => simp

@[simp] theorem erase_create (m : Machine σ V E G) (c : Nat) (body : V → σ) (next : Nat → σ) :
    erase (create m c body next) = create (erase m) c body next := by
  simp only [create,erase_setLife,erase_setThread]
  rfl

@[simp] theorem erase_resume (m : Machine σ V E G) (c co : Nat) (value : V)
    (next : Outcome V → σ) :
    erase (resume L m c co value next) = resume L (erase m) c co value next := by
  have stack : (erase m).stack = m.stack := rfl
  simp only [resume,stack,erase_life]
  split
  · simp
  · cases (m.threads co).life with
    | ready | yielded | resuming | dead => simp

@[simp] theorem erase_passYield (m : Machine σ V E G) :
    erase (passYield O m) = passYield O (erase m) := rfl

theorem erase_passHook (m : Machine σ V E G) (same : O.atHook m.hooks m.shared = m.shared) :
    erase (passHook O m) = erase m := by
  simp [erase,passHook,same]

@[simp] theorem erase_yield (m : Machine σ V E G) (c : Nat) (rest : List Nat) (code : σ)
    (value : V) (next : V → σ) :
    erase (yield L O m c rest code value next) = yield L O (erase m) c rest code value next := by
  by_cases across : 0 < (m.threads c).boundary
  · simp [yield,erase_boundary,across]
  · cases rest <;> simp [yield,erase_boundary,across]

@[simp] theorem erase_exec (m : Machine σ V E G) (c : Nat) (rest : List Nat) (code : σ) :
    erase (exec L O m c rest code) = exec L O (erase m) c rest code := by
  unfold exec
  cases L.fetch code with
  | emit effect next =>
    exact congrArg (fun n : Machine σ V E G => { n with effects := m.effects ++ [effect] })
      (erase_setLife m c _)
  | work | create | resume | yield | ret | error => simp
  | access next =>
    exact congrArg (fun n : Machine σ V E G => setShared n (next m.shared).2)
      (erase_setLife m c _)
  | enterC | leaveC => simp [erase_boundary]

theorem step_plain (m : Machine σ V E G) (stack : m.stack = c :: rest)
    (life : (m.threads c).life = .ready code) :
    step L O (erase m) = exec L O (erase m) c rest code := by
  have stack' : (erase m).stack = c :: rest := stack
  have hook : ((erase m).threads c).hook = none := rfl
  have same : setHook (erase m) c none = erase m := by simp [setHook,setThread,erase]
  simp [step,stack',erase_life,life,hook,check,same]

theorem step_idle (m : Machine σ V E G) (stack : m.stack = c :: rest)
    (notReady : ∀ code, (m.threads c).life ≠ .ready code) : step L O m = m := by
  cases life : (m.threads c).life with
  | ready code => exact absurd life (notReady code)
  | yielded | resuming | dead => simp [step,stack,life]

theorem idle_matches (m : Machine σ V E G) (stack : m.stack = c :: rest)
    (notReady : ∀ code, (m.threads c).life ≠ .ready code) :
    Matches (step L O) (step L O) erase m := by
  rw [Matches,step_idle L O m stack notReady]
  exact (step_idle L O (erase m) stack notReady).symm

def Quiet (m : Machine σ V E G) : Prop :=
  ∀ c rest hook, m.stack = c :: rest → check (m.threads c).hook ≠ .fire hook

theorem quiet_matches (m : Machine σ V E G) (quiet : Quiet m) :
    Matches (step L O) (step L O) erase m := by
  cases stack : m.stack with
  | nil =>
    have stack' : (erase m).stack = [] := stack
    simp [Matches,step,stack,stack']
  | cons c rest =>
    cases life : (m.threads c).life with
    | ready code =>
      rw [Matches,step_plain L O m stack life]
      cases found : check (m.threads c).hook with
      | fire hook => exact absurd found (quiet c rest hook stack)
      | execute hook => simp [step,stack,life,found]
    | yielded | resuming | dead => exact idle_matches L O m stack (by simp [life])

/-- If the hook fires, it does so in the task's own coroutine, outside any C call that cannot
yield, and nobody changes what is shared before the task is resumed. -/
def Benign (m : Machine σ V E G) : Prop :=
  ∀ c rest hook, m.stack = c :: rest → check (m.threads c).hook = .fire hook →
    rest = [] ∧ (m.threads c).boundary = 0 ∧ O.atHook m.hooks m.shared = m.shared

/-- Such a hook changes nothing but its own counters, and lets the instruction pass next
time. -/
theorem benign_stutters (m : Machine σ V E G) (benign : Benign O m) :
    Matches (step L O) (step L O) erase m ∨
      Stutters (step L O) erase m ∧ Matches (step L O) (step L O) erase (step L O m) := by
  by_cases quiet : Quiet m
  · exact Or.inl (quiet_matches L O m quiet)
  · simp only [Quiet,not_forall,not_not] at quiet
    obtain ⟨c,rest,hook,stack,fired⟩ := quiet
    obtain ⟨rfl,boundary,same⟩ := benign c rest hook stack fired
    cases life : (m.threads c).life with
    | ready code =>
      have hooked : step L O m =
          passHook O (setHook m c (some { hook with count := 1, mark := true })) := by
        simp [step,stack,life,fired,luaHook,boundary]
      right
      rw [Stutters,hooked]
      refine ⟨?_,quiet_matches L O _ ?_⟩
      · exact (erase_passHook O (setHook m c _) same).trans (erase_setHook m c _)
      · intro d rest other stack' fires
        have top : m.stack = d :: rest := stack'
        rw [stack] at top
        cases top
        simp [passHook,setHook,setThread,check] at fires
    | yielded | resuming | dead => exact Or.inl (idle_matches L O m stack (by simp [life]))

structure Flat : Prop where
  noResume : ∀ code co value next, L.fetch code ≠ .resume co value next
  noC : ∀ code next, L.fetch code ≠ .enterC next
  handlers : ∀ code value next boundary, L.handler code value = some (next, boundary) →
    boundary = 0

structure Level (m : Machine σ V E G) : Prop where
  stack : m.stack = [] ∨ m.stack = [0]
  boundary : ∀ c, (m.threads c).boundary = 0

def Others.Steady (O : Others G) : Prop := ∀ n shared, O.atHook n shared = shared

variable {O} in
theorem Level.benign (level : Level (m : Machine σ V E G)) (steady : O.Steady) : Benign O m := by
  intro c rest hook stack _
  rcases level.stack with none | own
  · rw [none] at stack
    contradiction
  · rw [own] at stack
    cases stack
    exact ⟨rfl,level.boundary 0,steady _ _⟩

theorem Level.setThread (level : Level (m : Machine σ V E G)) (c : Nat) (thread : Thread σ V)
    (boundary : thread.boundary = 0) : Level (setThread m c thread) := by
  refine ⟨level.stack,fun d => ?_⟩
  by_cases same : d = c
  · simp [Coroutines.setThread,same,boundary]
  · simp [Coroutines.setThread,same,level.boundary d]

theorem Level.setLife (level : Level (m : Machine σ V E G)) (c : Nat) (life : Life σ V) :
    Level (setLife m c life) :=
  level.setThread c _ (level.boundary c)

theorem Level.setHook (level : Level (m : Machine σ V E G)) (c : Nat) (hook : Option Hook) :
    Level (setHook m c hook) :=
  level.setThread c _ (level.boundary c)

theorem Level.ended (level : Level (m : Machine σ V E G)) (outcome : Outcome V) :
    Level (give m [] outcome) := ⟨Or.inl rfl,level.boundary⟩

variable {L} in
theorem Level.raise (level : Level m) (flat : Flat L) (c : Nat) (code : σ) (value : V) :
    Level (raise L m c [] code value) := by
  unfold Coroutines.raise
  cases found : L.handler code value with
  | none => exact (level.setLife c .dead).ended _
  | some handler =>
    obtain ⟨next,boundary⟩ := handler
    obtain rfl := flat.handlers code value next boundary found
    exact (level.setLife c _).setThread c _ rfl

variable {L} in
theorem Level.exec (level : Level m) (flat : Flat L) (c : Nat) (code : σ) :
    Level (exec L O m c [] code) := by
  unfold Coroutines.exec
  cases found : L.fetch code with
  | emit effect next =>
    have moved := level.setLife c (.ready next)
    exact ⟨moved.stack,moved.boundary⟩
  | work next => exact level.setLife c _
  | access next =>
    have moved := level.setLife c (.ready (next m.shared).1)
    exact ⟨moved.stack,moved.boundary⟩
  | create body next =>
    have started : Level { m with created := m.created + 1 } := ⟨level.stack,level.boundary⟩
    exact (started.setThread m.created _ rfl).setLife c _
  | resume co value next => exact absurd found (flat.noResume code co value next)
  | yield value next =>
    have moved := level.setLife c (.ready (next L.nothing))
    simp only [Coroutines.yield,level.boundary c,Nat.lt_irrefl,↓reduceIte]
    exact ⟨moved.stack,moved.boundary⟩
  | enterC next => exact absurd found (flat.noC code next)
  | leaveC next =>
    exact (level.setLife c _).setThread c _ (by simp [level.boundary c])
  | ret value => exact (level.setLife c .dead).ended _
  | error value => exact level.raise flat c code value

variable {L} in
theorem Level.step (level : Level m) (flat : Flat L) : Level (step L O m) := by
  rcases level.stack with none | own
  · simpa [Coroutines.step,none] using level
  · cases life : (m.threads 0).life with
    | ready code =>
      cases found : check (m.threads 0).hook with
      | execute hook =>
        simpa [Coroutines.step,own,life,found] using (level.setHook 0 hook).exec O flat 0 code
      | fire hook =>
        have moved := level.setHook 0 (some { hook with count := 1, mark := true })
        simp only [Coroutines.step,own,life,found,luaHook,level.boundary 0,Nat.lt_irrefl,
          ↓reduceIte]
        exact ⟨moved.stack.imp id (fun _ => own),moved.boundary⟩
    | yielded | resuming | dead => simpa [Coroutines.step,own,life] using level

theorem erase_start (body : σ) (shared : G) (hook : Option Hook) :
    erase (start body shared hook : Machine σ V E G) = start body shared none := by
  simp only [erase,start,Machine.mk.injEq,and_self,and_true]
  funext c
  split <;> rfl

/-- The run of `body` under `taskadd`'s hook with this `maskcount`, after `n` steps. -/
def hookedRun (body : σ) (shared : G) (maskcount : Int) (n : Nat) : Machine σ V E G :=
  (step L O)^[n] (start body shared (some (Hook.set maskcount)))

variable {L O} in
theorem flat_benign (flat : Flat L) (steady : O.Steady) (body : σ) (shared : G)
    (maskcount : Int) (n : Nat) : Benign O (hookedRun L O body shared maskcount n) := by
  have level : Level (hookedRun L O body shared maskcount n) := by
    induction n with
    | zero =>
      refine ⟨Or.inr rfl,fun c => ?_⟩
      by_cases own : c = 0 <;> simp [hookedRun,start,own]
    | succ n ih =>
      rw [hookedRun,Function.iterate_succ_apply']
      exact ih.step O flat
  exact level.benign steady

def plainRun (body : σ) (shared : G) (n : Nat) : Machine σ V E G :=
  (step L O)^[n] (start body shared none)

/-- Others that count up what is shared while the task is suspended by itself. -/
def counting : Others Nat := ⟨fun _ shared => shared + 1, fun _ shared => shared⟩

/-- A flat body: an effect, a yield, and an effect that tells what is shared. -/
def flatBody : Language Nat Unit Nat Nat where
  fetch
    | 0 => .emit 1 1
    | 1 => .yield () fun _ => 2
    | 2 => .access fun shared => (3 + shared, shared)
    | 3 => .ret ()
    | shared => .emit (shared - 3) 3
  handler _ _ := none
  nothing := ()
  message _ := ()

theorem flatBody_flat : Flat flatBody := by
  constructor
  · intro code
    rcases code with _ | _ | _ | _ | _ <;> simp [flatBody]
  · intro code
    rcases code with _ | _ | _ | _ | _ <;> simp [flatBody]
  · simp [flatBody]

/-- A body that runs a coroutine of its own and tells whether it has returned. -/
def nestedBody : Language Nat Unit Bool Unit where
  fetch
    | 0 => .create (fun _ => 10) fun _ => 1
    | 1 => .resume 1 () fun
      | .returned _ => 2
      | _ => 3
    | 2 => .emit true 4
    | 3 => .emit false 4
    | 10 => .work 11
    | 11 => .work 12
    | _ => .ret ()
  handler _ _ := none
  nothing := ()
  message _ := ()

def callbackBody : Language Nat Unit Bool Unit where
  fetch
    | 0 => .enterC 1
    | 1 => .work 2
    | 2 => .leaveC 3
    | 3 => .emit true 4
    | _ => .ret ()
  handler _ _ := none
  nothing := ()
  message _ := ()

def idle : Others Unit := ⟨fun _ shared => shared, fun _ shared => shared⟩

/-- A body that reads the global `timer_ticks` twice and tells whether it is the same. -/
def ticksBody : Language (Nat × Nat) Unit Bool Nat where
  fetch
    | (0, _) => .access fun ticks => ((1, ticks), ticks)
    | (1, before) => .access fun ticks => ((if ticks = before then 2 else 3, ticks), ticks)
    | (2, _) => .emit true (4, 0)
    | (3, _) => .emit false (4, 0)
    | _ => .ret ()
  handler _ _ := none
  nothing := ()
  message _ := ()

/-- The scheduler stores a new `timer_ticks` in each pass. -/
def ticking : Others Nat := ⟨fun _ ticks => ticks + 1, fun _ ticks => ticks + 1⟩

end LuaKernel.Coroutines
