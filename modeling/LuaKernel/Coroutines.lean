import LuaKernel.Stutter

/-! Coroutines of Lua 5.2 with a count hook that yields. Programs are arbitrary: a program is
what each of its positions does next, one virtual-machine instruction at a time. The task's
own coroutine is at the bottom of the stack; below it is the scheduler, which resumes it
again whenever it yields. In between the scheduler and the other tasks may change what the task
shares with them. -/
namespace LuaKernel.Coroutines

inductive Outcome (V : Type)
  | returned (value : V)
  | yielded (value : V)
  | failed (value : V)
  deriving DecidableEq

/-- The errors the coroutine library raises itself. -/
inductive Failure
  | acrossC | dead | notSuspended

inductive Instr (σ V E G : Type)
  /-- an effect others can see -/
  | emit (effect : E) (next : σ)
  | work (next : σ)
  /-- a read or a write of what is shared: globals, tables that others have, devices -/
  | access (next : G → σ × G)
  | create (body : V → σ) (next : Nat → σ)
  | resume (co : Nat) (value : V) (next : Outcome V → σ)
  | yield (value : V) (next : V → σ)
  /-- a call from a C function that has no continuation, into Lua again -/
  | enterC (next : σ)
  /-- the return from such a call -/
  | leaveC (next : σ)
  | ret (value : V)
  | error (value : V)

/-- A program: `handler` is the innermost protected call at a position, with where it goes on
and the number of non-yieldable calls outside it. `nothing` is a list of no values. -/
structure Language (σ V E G : Type) where
  fetch : σ → Instr σ V E G
  handler : σ → V → Option (σ × Nat)
  nothing : V
  message : Failure → V

/-- What the scheduler and the other tasks do to what is shared, between a yield of the task's own
coroutine to the scheduler and the resumption: after the `n`th of its own, and after the `n`th of
its hook. -/
structure Others (G : Type) where
  atYield : Nat → G → G
  atHook : Nat → G → G

/-- A count hook: `basehookcount`, `hookcount`, and the mark left on a call whose hook
yielded. -/
structure Hook where
  base : Int
  count : Int
  mark : Bool
  deriving DecidableEq

/-- `lua_sethook`, and the hook a new coroutine inherits. -/
def Hook.set (count : Int) : Hook := ⟨count, count, false⟩

inductive Life (σ V : Type)
  /-- running, or suspended by its hook -/
  | ready (code : σ)
  /-- suspended in `coroutine.yield`, or not started -/
  | yielded (next : V → σ)
  /-- waiting for the coroutine it has resumed -/
  | resuming (next : Outcome V → σ)
  | dead

/-- `boundary` counts the non-yieldable C calls on the coroutine's stack, `L->nny`. -/
structure Thread (σ V : Type) where
  life : Life σ V
  boundary : Nat
  hook : Option Hook

/-- The active coroutines, the running one first and the task's own last; and the number of times
the task has yielded to the scheduler, by itself and by its hook. -/
structure Machine (σ V E G : Type) where
  threads : Nat → Thread σ V
  created : Nat
  stack : List Nat
  effects : List E
  result : Option (Outcome V)
  shared : G
  yields : Nat
  hooks : Nat

variable {σ V E G : Type}

def setThread (m : Machine σ V E G) (c : Nat) (thread : Thread σ V) : Machine σ V E G :=
  { m with threads := Function.update m.threads c thread }

def setLife (m : Machine σ V E G) (c : Nat) (life : Life σ V) : Machine σ V E G :=
  setThread m c { m.threads c with life := life }

def setBoundary (m : Machine σ V E G) (c : Nat) (boundary : Nat) : Machine σ V E G :=
  setThread m c { m.threads c with boundary := boundary }

def setHook (m : Machine σ V E G) (c : Nat) (hook : Option Hook) : Machine σ V E G :=
  setThread m c { m.threads c with hook := hook }

def setShared (m : Machine σ V E G) (shared : G) : Machine σ V E G := { m with shared := shared }

def setStack (m : Machine σ V E G) (stack : List Nat) : Machine σ V E G := { m with stack := stack }

/-- The running coroutine gives way to the one that resumed it, or ends the task. -/
def give (m : Machine σ V E G) (rest : List Nat) (outcome : Outcome V) : Machine σ V E G :=
  match rest with
  | [] => { m with stack := [], result := some outcome }
  | r :: _ =>
    match (m.threads r).life with
    | .resuming next => setStack (setLife m r (.ready (next outcome))) rest
    | _ => setStack m rest

variable (L : Language σ V E G) (O : Others G)

def passYield (m : Machine σ V E G) : Machine σ V E G :=
  { m with shared := O.atYield m.yields m.shared, yields := m.yields + 1 }

def passHook (m : Machine σ V E G) : Machine σ V E G :=
  { m with shared := O.atHook m.hooks m.shared, hooks := m.hooks + 1 }

/-- An error in coroutine `c` goes to its innermost protected call, or ends it. -/
def raise (m : Machine σ V E G) (c : Nat) (rest : List Nat) (code : σ) (value : V) :
    Machine σ V E G :=
  match L.handler code value with
  | some (next, boundary) => setBoundary (setLife m c (.ready next)) c boundary
  | none => give (setLife m c .dead) rest (.failed value)

def create (m : Machine σ V E G) (c : Nat) (body : V → σ) (next : Nat → σ) : Machine σ V E G :=
  let thread := ⟨.yielded body, 0, (m.threads c).hook.map fun hook => Hook.set hook.base⟩
  setLife (setThread { m with created := m.created + 1 } m.created thread) c
    (.ready (next m.created))

def resume (m : Machine σ V E G) (c co : Nat) (value : V) (next : Outcome V → σ) :
    Machine σ V E G :=
  if co ∈ m.stack then setLife m c (.ready (next (.failed (L.message .notSuspended)))) else
  match (m.threads co).life with
  | .ready _ => setStack (setLife m c (.resuming next)) (co :: m.stack)
  | .yielded body =>
    setStack (setLife (setLife m c (.resuming next)) co (.ready (body value))) (co :: m.stack)
  | _ => setLife m c (.ready (next (.failed (L.message .dead))))

/-- `coroutine.yield`; the scheduler takes the values of the task and passes none back. -/
def yield (m : Machine σ V E G) (c : Nat) (rest : List Nat) (code : σ) (value : V)
    (next : V → σ) : Machine σ V E G :=
  if 0 < (m.threads c).boundary then raise L m c rest code (L.message .acrossC) else
  match rest with
  | [] => passYield O (setLife m c (.ready (next L.nothing)))
  | _ => give (setLife m c (.yielded next)) rest (.yielded value)

/-- The instruction at `code` of the running coroutine `c`. -/
def exec (m : Machine σ V E G) (c : Nat) (rest : List Nat) (code : σ) : Machine σ V E G :=
  match L.fetch code with
  | .emit effect next => { setLife m c (.ready next) with effects := m.effects ++ [effect] }
  | .work next => setLife m c (.ready next)
  | .access next => setShared (setLife m c (.ready (next m.shared).1)) (next m.shared).2
  | .create body next => create m c body next
  | .resume co value next => resume L m c co value next
  | .yield value next => yield L O m c rest code value next
  | .enterC next => setBoundary (setLife m c (.ready next)) c ((m.threads c).boundary + 1)
  | .leaveC next => setBoundary (setLife m c (.ready next)) c ((m.threads c).boundary - 1)
  | .ret value => give (setLife m c .dead) rest (.returned value)
  | .error value => raise L m c rest code value

/-- What the virtual machine finds before an instruction: the hook may have to be called. -/
inductive Check
  | execute (hook : Option Hook)
  | fire (hook : Hook)

/-- `traceexec`: an instruction whose hook yielded is not hooked a second time. -/
def check : Option Hook → Check
  | none => .execute none
  | some hook =>
    if hook.count - 1 = 0 then
      if hook.mark then .execute (some { hook with count := hook.base, mark := false })
      else .fire { hook with count := hook.base }
    else .execute (some { hook with count := hook.count - 1 })

/-- The hook calls `lua_yield`: the running coroutine is suspended before the instruction,
and the one that resumed it is told of a yield. The scheduler resumes the task, after what it and
the others do. -/
def luaHook (m : Machine σ V E G) (c : Nat) (rest : List Nat) (code : σ) (hook : Hook) :
    Machine σ V E G :=
  if 0 < (m.threads c).boundary then
    raise L (setHook m c (some hook)) c rest code (L.message .acrossC)
  else
    let m := setHook m c (some { hook with count := 1, mark := true })
    match rest with
    | [] => passHook O m
    | _ => give m rest (.yielded L.nothing)

def step (m : Machine σ V E G) : Machine σ V E G :=
  match m.stack with
  | [] => m
  | c :: rest =>
    match (m.threads c).life with
    | .ready code =>
      match check (m.threads c).hook with
      | .execute hook => exec L O (setHook m c hook) c rest code
      | .fire hook => luaHook L O m c rest code hook
    | _ => m

def start (body : σ) (shared : G) (hook : Option Hook) : Machine σ V E G where
  threads c := if c = 0 then ⟨.ready body, 0, hook⟩ else ⟨.dead, 0, none⟩
  created := 1
  stack := [0]
  effects := []
  result := none
  shared := shared
  yields := 0
  hooks := 0

end LuaKernel.Coroutines
