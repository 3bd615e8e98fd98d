import Mathlib.Logic.Function.Basic
import LuaKernel.Runs

/-! Where an error of Lua 5.2 goes. A thread's error handlers are the protected calls made on that
thread and the `lua_resume` that runs it, all on one C stack. `handle_syscall` leaves the thread
that made the system call and goes on with the main one, so its errors pass by every handler of
the task. -/
namespace LuaKernel.Unwinding

open Runs

abbrev Thread := Nat

def mainthread : Thread := 0

inductive Frame
  /-- `luaD_pcall` -/
  | pcall (t : Thread)
  /-- `lua_pcallk` with a continuation, which marks the call and leaves the handling to the
  resume -/
  | ypcall (t : Thread)
  /-- a C function that calls Lua without a continuation -/
  | call (t : Thread)
  /-- `lua_resume` -/
  | resume (co : Thread)
  /-- `handle_syscall` -/
  | syscall (t : Thread)
  deriving DecidableEq

def running : List Frame → Thread
  | [] => mainthread
  | .pcall t :: _ | .ypcall t :: _ | .call t :: _ => t
  | .resume co :: _ => co
  | .syscall _ :: _ => mainthread

inductive Life
  | new
  | suspended (marks : Nat)
  | active
  | dead
  deriving DecidableEq

structure State where
  stack : List Frame
  life : Thread → Life

/-- The frame is on the thread's chain of `errorJmp`. -/
def protects (t : Thread) : Frame → Bool
  | .pcall u | .resume u => u == t
  | _ => false

def above (t : Thread) (stack : List Frame) : List Frame :=
  stack.takeWhile fun frame => !protects t frame

def below (t : Thread) (stack : List Frame) : List Frame :=
  stack.dropWhile fun frame => !protects t frame

def marks (t : Thread) (stack : List Frame) : Nat := (above t stack).count (.ypcall t)

def blocks (t : Thread) : Frame → Bool
  | .pcall u | .call u => u == t
  | .syscall _ => t == mainthread
  | _ => false

def nny (t : Thread) (stack : List Frame) : Nat :=
  (if t = mainthread then 1 else 0) + stack.countP (blocks t)

/-- `luaD_throw`, up to where control goes on: behind the protected call, in the coroutine at a
call that `recover` found, or in the resumer of a coroutine that is dead now. A thread without a
handler is dead, and the main one's handler is used. -/
def throw (t : Thread) (s : State) : State :=
  match below t s.stack with
  | .resume _ :: rest =>
    match marks t s.stack with
    | 0 => ⟨rest, Function.update s.life t .dead⟩
    | n + 1 => { s with stack := List.replicate n (.ypcall t) ++ .resume t :: rest }
  | _ :: rest => { s with stack := rest }
  | [] => ⟨(below mainthread s.stack).tail, Function.update s.life t .dead⟩

inductive Label
  /-- `coroutine.create` -/
  | create (co : Thread)
  /-- `coroutine.resume` of a suspended coroutine -/
  | resume (co : Thread)
  | pcall
  | call
  | syscall
  /-- the innermost frame returns -/
  | ret
  /-- `lua_yield`, by the program or by the count hook -/
  | yield
  | error

def push (frame : Frame) (s : State) : State := { s with stack := frame :: s.stack }

/-- An empty stack is a kernel whose `lua_pcall` in `main` has returned; by itself it never
does. -/
def step (s : State) (label : Label) : Option State :=
  if s.stack = [] then none else
  let t := running s.stack
  match label with
  | .create co =>
    if s.life co = .new then some { s with life := Function.update s.life co (.suspended 0) }
    else none
  | .resume co =>
    match s.life co with
    | .suspended n => some ⟨List.replicate n (.ypcall co) ++ .resume co :: s.stack,
        Function.update s.life co .active⟩
    | _ => none
  | .pcall => some (push (if nny t s.stack = 0 then .ypcall t else .pcall t) s)
  | .call => some (push (.call t) s)
  | .syscall => some (push (.syscall t) s)
  | .ret =>
    match s.stack with
    | .resume co :: rest => some ⟨rest, Function.update s.life co .dead⟩
    | _ :: rest => if rest = [] then none else some { s with stack := rest }
    | [] => none
  | .yield =>
    if nny t s.stack = 0 then
      some ⟨(below t s.stack).tail, Function.update s.life t (.suspended (marks t s.stack))⟩
    else some (throw t s)
  | .error => some (throw t s)

/-- `main` has called the kernel's chunk with `lua_pcall`. -/
def boot : State := ⟨[.pcall mainthread], fun t => if t = mainthread then .active else .new⟩

/-- Every frame was made by the thread that ran under it, a marked call by one that could yield,
and a coroutine is resumed once. -/
inductive Sound : List Frame → Prop
  | start : Sound [.pcall mainthread]
  | pcall (sound : Sound rest) : Sound (.pcall (running rest) :: rest)
  | ypcall (sound : Sound rest) (free : nny (running rest) rest = 0) :
      Sound (.ypcall (running rest) :: rest)
  | call (sound : Sound rest) : Sound (.call (running rest) :: rest)
  | syscall (sound : Sound rest) : Sound (.syscall (running rest) :: rest)
  | resume (sound : Sound rest) (other : co ≠ mainthread) (fresh : .resume co ∉ rest) :
      Sound (.resume co :: rest)

theorem Sound.tail (sound : Sound (frame :: rest)) : rest = [] ∨ Sound rest := by
  cases sound with
  | start => exact Or.inl rfl
  | pcall sound | ypcall sound | call sound | syscall sound | resume sound => exact Or.inr sound

theorem Sound.suffix {front rest : List Frame} (sound : Sound (front ++ rest)) (some_ : rest ≠ []) :
    Sound rest := by
  induction front with
  | nil => exact sound
  | cons frame front ih =>
    rcases sound.tail with none | sound
    · exact absurd (List.append_eq_nil_iff.mp none).2 some_
    · exact ih sound

theorem Sound.resumed (sound : Sound (front ++ .resume co :: rest)) :
    co ≠ mainthread ∧ .resume co ∉ rest := by
  cases sound.suffix (by simp) with
  | resume _ task fresh => exact ⟨task,fresh⟩

theorem nny_main (stack : List Frame) : nny mainthread stack ≠ 0 := by
  simp [nny]

theorem nny_pass {stack : List Frame} (pass : blocks t frame = false) :
    nny t (frame :: stack) = nny t stack := by
  simp [nny,pass]

theorem nny_block {stack : List Frame} (block : blocks t frame = true) :
    nny t (frame :: stack) ≠ 0 := by
  simp [nny,block]

/-- A coroutine that is not resumed does not run and has no calls. -/
theorem Sound.absent (sound : Sound stack) (task : co ≠ mainthread)
    (fresh : .resume co ∉ stack) : running stack ≠ co ∧ nny co stack = 0 := by
  induction sound with
  | start => exact ⟨task.symm,by simp [nny,task,blocks,task.symm]⟩
  | pcall sound ih | call sound ih =>
    obtain ⟨idle,free⟩ := ih fun member => fresh (by simp [member])
    exact ⟨idle,by rw [nny_pass (by simpa [blocks] using idle),free]⟩
  | ypcall sound _ ih =>
    obtain ⟨idle,free⟩ := ih fun member => fresh (by simp [member])
    exact ⟨idle,by rw [nny_pass rfl,free]⟩
  | syscall sound ih =>
    obtain ⟨-,free⟩ := ih fun member => fresh (by simp [member])
    exact ⟨task.symm,by rw [nny_pass (by simpa [blocks] using task),free]⟩
  | resume sound other _ ih =>
    obtain ⟨-,free⟩ := ih fun member => fresh (by simp [member])
    exact ⟨fun same => fresh (by simp [← same,running]),by rw [nny_pass rfl,free]⟩

/-- What a coroutine's part of the stack holds above its resume: calls that cannot yield, over
the marked ones. -/
structure Segment (t : Thread) (stack rest : List Frame) where
  inner : List Frame
  marked : Nat
  split : stack = inner ++ (List.replicate marked (.ypcall t) ++ .resume t :: rest)
  calls : ∀ frame ∈ inner, frame = .pcall t ∨ frame = .call t
  sound : Sound rest
  fresh : .resume t ∉ rest

/-- A mark is set where no call keeps the thread from yielding. -/
theorem Segment.free (segment : Segment t stack rest) (free : nny t stack = 0) :
    segment.inner = [] := by
  obtain ⟨inner,marked,rfl,calls,-,-⟩ := segment
  cases inner with
  | nil => rfl
  | cons frame inner =>
    refine absurd free (nny_block ?_)
    rcases calls frame (by simp) with rfl | rfl <;> simp [blocks]

def Segment.call (segment : Segment t stack rest) (own : frame = .pcall t ∨ frame = .call t) :
    Segment t (frame :: stack) rest where
  inner := frame :: segment.inner
  marked := segment.marked
  split := congrArg (frame :: ·) segment.split
  calls := List.forall_mem_cons.mpr ⟨own,segment.calls⟩
  sound := segment.sound
  fresh := segment.fresh

theorem Sound.segment (sound : Sound stack) (task : running stack ≠ mainthread) :
    ∃ rest, Nonempty (Segment (running stack) stack rest) := by
  induction sound with
  | start => exact absurd rfl task
  | syscall => exact absurd rfl task
  | @resume rest co sound _ fresh => exact ⟨rest,⟨⟨[],0,rfl,by simp,sound,fresh⟩⟩⟩
  | pcall _ ih =>
    obtain ⟨rest,⟨segment⟩⟩ := ih task
    exact ⟨rest,⟨segment.call (Or.inl rfl)⟩⟩
  | call _ ih =>
    obtain ⟨rest,⟨segment⟩⟩ := ih task
    exact ⟨rest,⟨segment.call (Or.inr rfl)⟩⟩
  | @ypcall stack _ free ih =>
    obtain ⟨rest,⟨segment⟩⟩ := ih task
    refine ⟨rest,⟨⟨[],segment.marked + 1,?_,by simp,segment.sound,segment.fresh⟩⟩⟩
    have split := segment.split
    rw [segment.free free] at split
    exact congrArg (Frame.ypcall (running stack) :: ·) split

/-- What a resume, or `recover`, leaves of the marks of a coroutine. -/
theorem Sound.marked (sound : Sound rest) (task : co ≠ mainthread) (fresh : .resume co ∉ rest)
    (n : Nat) : Sound (List.replicate n (.ypcall co) ++ .resume co :: rest) ∧
      running (List.replicate n (.ypcall co) ++ .resume co :: rest) = co ∧
      nny co (List.replicate n (.ypcall co) ++ .resume co :: rest) = 0 := by
  induction n with
  | zero => exact ⟨.resume sound task fresh,rfl,(nny_pass rfl).trans (sound.absent task fresh).2⟩
  | succ n ih =>
    obtain ⟨sound',here,free⟩ := ih
    have marked := Sound.ypcall sound' (by rw [here]; exact free)
    rw [here] at marked
    exact ⟨marked,rfl,(nny_pass rfl).trans free⟩

theorem below_pass {stack : List Frame} (pass : protects t frame = false) :
    below t (frame :: stack) = below t stack := by
  simp [below,pass]

theorem below_stop {stack : List Frame} (stop : protects t frame = true) :
    below t (frame :: stack) = frame :: stack := by
  simp [below,stop]

theorem above_pass {stack : List Frame} (pass : protects t frame = false) :
    above t (frame :: stack) = frame :: above t stack := by
  simp [above,pass]

/-- The main thread's handler is the innermost protected call made on it. -/
theorem main_handler (sound : Sound stack) : ∃ front rest,
    stack = front ++ .pcall mainthread :: rest ∧ .pcall mainthread ∉ front ∧
      below mainthread stack = .pcall mainthread :: rest := by
  have pass : ∀ {frame rest}, protects mainthread frame = false → .pcall mainthread ≠ frame →
      (∃ front more, rest = front ++ .pcall mainthread :: more ∧ .pcall mainthread ∉ front ∧
        below mainthread rest = .pcall mainthread :: more) →
      ∃ front more, frame :: rest = front ++ .pcall mainthread :: more ∧
        .pcall mainthread ∉ front ∧
        below mainthread (frame :: rest) = .pcall mainthread :: more := by
    rintro frame rest pass other ⟨front,more,rfl,absent,found⟩
    exact ⟨frame :: front,more,rfl,by simp [other,absent],by rw [below_pass pass,found]⟩
  induction sound with
  | start => exact ⟨[],[],rfl,by simp,rfl⟩
  | @pcall rest sound ih =>
    by_cases here : running rest = mainthread
    · exact ⟨[],rest,by rw [here]; rfl,by simp,by rw [here]; exact below_stop rfl⟩
    · exact pass (by simpa [protects] using here) (by simpa using Ne.symm here) ih
  | ypcall _ _ ih => exact pass rfl (by simp) ih
  | call _ ih => exact pass rfl (by simp) ih
  | syscall _ ih => exact pass rfl (by simp) ih
  | resume _ other _ ih => exact pass (by simpa [protects] using other) (by simp) ih

/-- Marked calls are no handlers; the resume under them is the handler, and counts them. -/
theorem resume_handler (t : Thread) (rest : List Frame) (n : Nat) :
    below t (List.replicate n (.ypcall t) ++ .resume t :: rest) = .resume t :: rest ∧
      marks t (List.replicate n (.ypcall t) ++ .resume t :: rest) = n := by
  induction n with
  | zero => exact ⟨below_stop (by simp [protects]),by simp [marks,above,protects]⟩
  | succ n ih =>
    obtain ⟨found,count⟩ := ih
    unfold marks at count ⊢
    rw [List.replicate_succ,List.cons_append,below_pass rfl,above_pass rfl,List.count_cons_self,
      count]
    exact ⟨found,rfl⟩

/-- How the frame that catches an error of the coroutine `t` goes on over `rest`: a protected
call in `t`, marked or not, and the resume in its resumer, with `t` dead. -/
inductive Caught (t : Thread) (rest : List Frame) (life : Thread → Life) : Frame → State → Prop
  | pcall : Caught t rest life (.pcall t) ⟨rest, life⟩
  | ypcall : Caught t rest life (.ypcall t) ⟨rest, life⟩
  | resume : Caught t rest life (.resume t) ⟨rest, Function.update life t .dead⟩

theorem throw_call (t : Thread) (stack : List Frame) (life : Thread → Life) :
    throw t ⟨.call t :: stack, life⟩ = throw t ⟨stack, life⟩ := by
  have count : marks t (.call t :: stack) = marks t stack := by
    rw [marks,above_pass rfl,List.count_cons_of_ne (by simp)]
    rfl
  have pass : ∀ u, below u (.call t :: stack) = below u stack := fun u => below_pass rfl
  simp only [throw,pass,count]

/-- The marked calls are unwound as if each were a handler of its own. -/
theorem throw_marked (t : Thread) (rest : List Frame) (n : Nat) (life : Thread → Life) :
    ∃ frame under, List.replicate n (.ypcall t) ++ .resume t :: rest = frame :: under ∧
      Caught t under life frame
        (throw t ⟨List.replicate n (.ypcall t) ++ .resume t :: rest, life⟩) := by
  obtain ⟨found,count⟩ := resume_handler t rest n
  cases n with
  | zero =>
    refine ⟨_,_,rfl,?_⟩
    simp only [throw,found,count]
    exact .resume
  | succ n =>
    refine ⟨_,_,rfl,?_⟩
    simp only [throw,found,count]
    exact .ypcall

theorem throw_caught (segment : Segment t stack rest) (life : Thread → Life) :
    ∃ calls frame under, stack = calls ++ frame :: under ∧ (∀ call ∈ calls, call = .call t) ∧
      Caught t under life frame (throw t ⟨stack, life⟩) := by
  obtain ⟨inner,marked,rfl,own,-,-⟩ := segment
  induction inner with
  | nil =>
    obtain ⟨frame,under,split,caught⟩ := throw_marked t rest marked life
    exact ⟨[],frame,under,split,by simp,caught⟩
  | cons frame inner ih =>
    rcases own frame (by simp) with rfl | rfl
    · refine ⟨[],_,_,rfl,by simp,?_⟩
      rw [throw,List.cons_append,below_stop (by simp [protects])]
      exact .pcall
    · obtain ⟨calls,frame,under,split,all,caught⟩ :=
        ih fun frame member => own frame (by simp [member])
      refine ⟨.call t :: calls,frame,under,congrArg (_ :: ·) split,by simpa using all,?_⟩
      rw [List.cons_append,throw_call]
      exact caught

/-- An error on the main thread passes by every frame down to the handler. -/
theorem throw_main (sound : Sound s.stack) : ∃ front rest,
    s.stack = front ++ .pcall mainthread :: rest ∧ .pcall mainthread ∉ front ∧
      throw mainthread s = { s with stack := rest } := by
  obtain ⟨front,rest,split,absent,found⟩ := main_handler sound
  exact ⟨front,rest,split,absent,by rw [throw,found]⟩

end LuaKernel.Unwinding
