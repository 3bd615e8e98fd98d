import LuaKernel.Unwinding

/-! Errors in a run of the kernel. A task's own errors stay with the task. Those of its system
calls are errors of the main thread: they end the kernel, or lose every task that was resumed
since the protected call that catches them. -/
namespace LuaKernel.Unwinding

open Runs

structure Good (s : State) : Prop where
  sound : s.stack = [] ∨ Sound s.stack
  active : ∀ co, .resume co ∈ s.stack → s.life co = .active
  main : s.life mainthread = .active

theorem good_boot : Good boot := ⟨Or.inr .start,by simp [boot],rfl⟩

theorem Good.sound_of (good : Good s) (some_ : s.stack ≠ []) : Sound s.stack :=
  good.sound.resolve_left some_

/-- Lives may change of coroutines that are not on the stack. -/
theorem Good.change (good : Good s) (task : co ≠ mainthread) (left : .resume co ∉ s.stack)
    (life : Life) : Good { s with life := Function.update s.life co life } := by
  refine ⟨good.sound,fun other member => ?_,?_⟩
  · have differ : other ≠ co := fun same => left (same ▸ member)
    exact (Function.update_of_ne differ _ _).trans (good.active other member)
  · exact (Function.update_of_ne (Ne.symm task) _ _).trans good.main

theorem Good.under (good : Good s) (split : s.stack = front ++ frame :: rest) :
    Good { s with stack := rest } := by
  refine ⟨?_,fun co member => good.active co (by simp [split,member]),good.main⟩
  by_cases none : rest = []
  · exact Or.inl none
  · have sound := good.sound_of (by simp [split])
    rw [split,← List.singleton_append,← List.append_assoc] at sound
    exact Or.inr (sound.suffix none)

/-- The frames under a resume, whose coroutine may then take any life. -/
theorem Good.left (good : Good s) (split : s.stack = front ++ .resume co :: rest) (life : Life) :
    Good ⟨rest, Function.update s.life co life⟩ := by
  have sound := good.sound_of (by simp [split])
  rw [split] at sound
  exact (good.under split).change sound.resumed.1 sound.resumed.2 life

theorem Good.push (good : Good s) (sound : Sound (frame :: s.stack))
    (other : ∀ co, frame ≠ .resume co) : Good (push frame s) := by
  refine ⟨Or.inr sound,fun co member => ?_,good.main⟩
  rcases List.mem_cons.mp member with same | member
  · exact absurd same.symm (other co)
  · exact good.active co member

theorem Good.resume (good : Good s) (some_ : s.stack ≠ []) (waits : s.life co = .suspended n) :
    Good ⟨List.replicate n (.ypcall co) ++ .resume co :: s.stack,
      Function.update s.life co .active⟩ := by
  have idle : s.life co ≠ .active := by simp [waits]
  have task : co ≠ mainthread := by
    rintro rfl
    exact idle good.main
  have fresh : .resume co ∉ s.stack := fun member => idle (good.active co member)
  have changed := good.change task fresh .active
  refine ⟨Or.inr ((good.sound_of some_).marked task fresh n).1,fun other member => ?_,changed.main⟩
  have cases_ : other = co ∨ .resume other ∈ s.stack := by
    simpa [List.mem_replicate] using member
  rcases cases_ with rfl | member
  · exact Function.update_self _ _ _
  · exact changed.active other member

theorem Good.throw (good : Good s) (some_ : s.stack ≠ []) :
    Good (Unwinding.throw (running s.stack) s) := by
  have sound := good.sound_of some_
  by_cases task : running s.stack = mainthread
  · obtain ⟨front,rest,split,-,result⟩ := throw_main sound
    rw [task,result]
    exact good.under split
  · obtain ⟨rest,⟨segment⟩⟩ := sound.segment task
    obtain ⟨calls,frame,under,split,-,caught⟩ := throw_caught segment s.life
    generalize Unwinding.throw (running s.stack) ⟨s.stack, s.life⟩ = next at caught
    cases caught with
    | pcall | ypcall => exact good.under split
    | resume => exact good.left split _

/-- A yield leaves the coroutine with the marks of its protected calls. -/
theorem yield_handler (sound : Sound stack) (free : nny (running stack) stack = 0) :
    ∃ front rest, stack = front ++ .resume (running stack) :: rest ∧
      below (running stack) stack = .resume (running stack) :: rest := by
  have task : running stack ≠ mainthread := fun main => nny_main stack (main ▸ free)
  obtain ⟨rest,⟨segment⟩⟩ := sound.segment task
  have split := segment.split
  rw [segment.free free,List.nil_append] at split
  refine ⟨_,_,split,?_⟩
  have found := (resume_handler (running stack) rest segment.marked).1
  rwa [← split] at found

theorem step_good (good : Good s) (moved : step s label = some next) : Good next := by
  by_cases some_ : s.stack = []
  · simp [step,some_] at moved
  have sound := good.sound_of some_
  rw [step,if_neg some_] at moved
  cases label with
  | create co =>
    dsimp only at moved
    split at moved
    · rename_i new
      cases moved
      refine good.change ?_ (fun member => ?_) _
      · rintro rfl
        simp [good.main] at new
      · simp [good.active co member] at new
    · cases moved
  | resume co =>
    dsimp only at moved
    split at moved
    · rename_i waits
      cases moved
      exact good.resume some_ waits
    · cases moved
  | pcall =>
    cases moved
    split
    · rename_i free
      exact good.push (.ypcall sound free) (by simp)
    · exact good.push (.pcall sound) (by simp)
  | call =>
    cases moved
    exact good.push (.call sound) (by simp)
  | syscall =>
    cases moved
    exact good.push (.syscall sound) (by simp)
  | ret =>
    dsimp only at moved
    split at moved
    · rename_i co rest shape
      cases moved
      exact good.left (shape.trans (List.nil_append _).symm) _
    · rename_i frame rest _ shape
      split at moved
      · cases moved
      · cases moved
        exact good.under (shape.trans (List.nil_append _).symm)
    · cases moved
  | yield =>
    dsimp only at moved
    split at moved
    · rename_i free
      cases moved
      obtain ⟨front,rest,split,found⟩ := yield_handler sound free
      rw [found]
      exact good.left split _
    · cases moved
      exact good.throw some_
  | error =>
    cases moved
    exact good.throw some_

theorem reached_good (ran : run step boot labels = some s) : Good s :=
  run_invariant (fun _ _ _ good moved => step_good good moved) ran good_boot

/-- An error that a task raises in its own code goes to the innermost protected call the task
has made, though a marked one set up no handler, or else kills the task alone: the frames of its
resumer and the lives of all others stay. -/
theorem task_error_caught (labels : List Label) (s next : State)
    (ran : run step boot labels = some s) (task : running s.stack ≠ mainthread)
    (failed : step s .error = some next) :
    ∃ calls frame under, s.stack = calls ++ frame :: under ∧
      (∀ call ∈ calls, call = .call (running s.stack)) ∧
      Caught (running s.stack) under s.life frame next := by
  have good := reached_good ran
  have some_ : s.stack ≠ [] := fun none => task (by rw [none]; rfl)
  obtain ⟨rest,⟨segment⟩⟩ := (good.sound_of some_).segment task
  rw [step,if_neg some_] at failed
  cases failed
  exact throw_caught segment s.life

/-- A task that called `table.sort` under a yieldable `pcall`: the comparison fails. -/
theorem comparison_error_caught :
    ∃ s next, run step boot [.create 1, .resume 1, .pcall, .call] = some s ∧
      step s .error = some next ∧ ∃ calls frame under, s.stack = calls ++ frame :: under ∧
        (∀ call ∈ calls, call = .call (running s.stack)) ∧
        Caught (running s.stack) under s.life frame next := by
  refine ⟨_,_,rfl,rfl,?_⟩
  exact task_error_caught [.create 1, .resume 1, .pcall, .call] _ _ rfl (by decide) rfl

/-- The bottom of the stack is the call of the kernel's chunk. -/
theorem Sound.bottom (sound : Sound stack) : ∃ front, stack = front ++ [.pcall mainthread] := by
  induction sound with
  | start => exact ⟨[],rfl⟩
  | pcall _ ih | ypcall _ _ ih | call _ ih | syscall _ ih | resume _ _ _ ih =>
    obtain ⟨front,split⟩ := ih
    exact ⟨_ :: front,congrArg (_ :: ·) split⟩

theorem Sound.under_task (sound : Sound (front ++ frame :: rest))
    (other : frame ≠ .pcall mainthread) : rest ≠ [] := by
  rintro rfl
  obtain ⟨more,split⟩ := sound.bottom
  exact other (List.append_inj_right' split rfl |> List.cons.inj |>.1)

theorem Caught.task (caught : Caught t rest life frame next) (task : t ≠ mainthread) :
    frame ≠ .pcall mainthread ∧ next.stack = rest := by
  cases caught with
  | pcall => exact ⟨by simpa using task,rfl⟩
  | ypcall | resume => exact ⟨by simp,rfl⟩

/-- The main thread's handler is that of `main` where the thread has made no other call. -/
theorem throw_main_iff (sound : Sound s.stack) :
    (throw mainthread s).stack = [] ↔ .pcall mainthread ∉ s.stack.dropLast := by
  obtain ⟨front,rest,split,absent,result⟩ := throw_main sound
  rw [result]
  constructor
  · rintro (rfl : rest = [])
    rw [split,List.dropLast_concat]
    exact absent
  · intro only
    by_contra some_
    refine only ?_
    rw [split,List.dropLast_append_of_ne_nil (by simp),List.dropLast_cons_of_ne_nil some_]
    simp

theorem throw_stops_iff (sound : Sound s.stack) :
    (throw (running s.stack) s).stack = [] ↔
      running s.stack = mainthread ∧ .pcall mainthread ∉ s.stack.dropLast := by
  by_cases main : running s.stack = mainthread
  · rw [main,throw_main_iff sound]
    exact (and_iff_right rfl).symm
  · obtain ⟨rest,⟨segment⟩⟩ := sound.segment main
    obtain ⟨calls,frame,under,split,-,caught⟩ := throw_caught segment s.life
    obtain ⟨other,result⟩ := caught.task main
    rw [split] at sound
    have some_ := sound.under_task other
    rw [← result] at some_
    simp [main,some_]

/-- The kernel stops exactly where the main thread fails, in the scheduler or in a system call
of any task, with no protected call of its own pending. -/
theorem kernel_stops_iff (labels : List Label) (s next : State) (label : Label)
    (ran : run step boot labels = some s) (moved : step s label = some next) :
    next.stack = [] ↔ (label = .error ∨ label = .yield) ∧ running s.stack = mainthread ∧
      .pcall mainthread ∉ s.stack.dropLast := by
  by_cases some_ : s.stack = []
  · simp [step,some_] at moved
  have sound := (reached_good ran).sound_of some_
  rw [step,if_neg some_] at moved
  cases label with
  | error =>
    cases moved
    simpa using throw_stops_iff sound
  | yield =>
    dsimp only at moved
    split at moved
    · rename_i free
      cases moved
      obtain ⟨front,rest,split,found⟩ := yield_handler sound free
      have task : running s.stack ≠ mainthread := fun main => nny_main s.stack (main ▸ free)
      rw [split] at sound
      simp [found,task,sound.under_task]
    · cases moved
      simpa using throw_stops_iff sound
  | ret =>
    dsimp only at moved
    split at moved
    · rename_i co rest shape
      cases moved
      rw [shape,← List.nil_append (_ :: rest)] at sound
      simp [sound.under_task]
    · split at moved
      · cases moved
      · rename_i here
        cases moved
        simp [here]
    · cases moved
  | create co | resume co =>
    dsimp only at moved
    split at moved
    · cases moved
      simp [some_]
    · cases moved
  | pcall | call | syscall =>
    cases moved
    simp [push]

/-- The command of the console that makes a system call with a bad argument: its `pcall` does
not help. -/
theorem console_error_stops :
    ∃ s next, run step boot [.create 1, .resume 1, .pcall, .syscall] = some s ∧
      step s .error = some next ∧ (next.stack = [] ↔
        (Label.error = .error ∨ Label.error = .yield) ∧ running s.stack = mainthread ∧
          .pcall mainthread ∉ s.stack.dropLast) ∧ next.stack = [] := by
  refine ⟨_,_,rfl,rfl,?_,rfl⟩
  exact kernel_stops_iff [.create 1, .resume 1, .pcall, .syscall] _ _ .error rfl rfl

/-- A task that is off the stack with a life as if it ran: no resume takes it up again. -/
structure Abandoned (co : Thread) (s : State) : Prop where
  active : s.life co = .active
  left : .resume co ∉ s.stack

theorem Abandoned.change (gone : Abandoned co s) (other : co ≠ u) (life : Life) :
    Abandoned co { s with life := Function.update s.life u life } :=
  ⟨(Function.update_of_ne other _ _).trans gone.active,gone.left⟩

theorem Abandoned.under (gone : Abandoned co s) (split : s.stack = front ++ frame :: rest) :
    Abandoned co { s with stack := rest } :=
  ⟨gone.active,fun member => gone.left (by simp [split,member])⟩

/-- Of the coroutines only one that is resumed leaves the stack. -/
theorem Abandoned.leave (gone : Abandoned co s) (split : s.stack = front ++ .resume u :: rest)
    (life : Life) : Abandoned co ⟨rest, Function.update s.life u life⟩ := by
  refine (gone.under split).change ?_ life
  rintro rfl
  exact gone.left (by simp [split])

theorem Abandoned.push (gone : Abandoned co s) (other : ∀ co, frame ≠ .resume co) :
    Abandoned co (push frame s) := by
  refine ⟨gone.active,fun member => ?_⟩
  rcases List.mem_cons.mp member with same | member
  · exact other co same.symm
  · exact gone.left member

theorem Abandoned.throw (gone : Abandoned co s) (sound : Sound s.stack) :
    Abandoned co (Unwinding.throw (running s.stack) s) := by
  by_cases task : running s.stack = mainthread
  · obtain ⟨front,rest,split,-,result⟩ := throw_main sound
    rw [task,result]
    exact gone.under split
  · obtain ⟨rest,⟨segment⟩⟩ := sound.segment task
    obtain ⟨calls,frame,under,split,-,caught⟩ := throw_caught segment s.life
    generalize Unwinding.throw (running s.stack) ⟨s.stack, s.life⟩ = next at caught
    cases caught with
    | pcall | ypcall => exact gone.under split
    | resume => exact gone.leave split _

theorem step_abandoned (good : Good s) (gone : Abandoned co s) (moved : step s label = some next) :
    Abandoned co next := by
  by_cases some_ : s.stack = []
  · simp [step,some_] at moved
  have sound := good.sound_of some_
  have active := gone.active
  rw [step,if_neg some_] at moved
  cases label with
  | create other =>
    dsimp only at moved
    split at moved
    · rename_i new
      cases moved
      refine gone.change ?_ _
      rintro rfl
      simp [active] at new
    · cases moved
  | resume other =>
    dsimp only at moved
    split at moved
    · rename_i waits
      cases moved
      have differ : co ≠ other := by
        rintro rfl
        simp [active] at waits
      refine ⟨(Function.update_of_ne differ _ _).trans active,?_⟩
      simpa [List.mem_replicate,differ] using gone.left
    · cases moved
  | pcall =>
    cases moved
    split
    · exact gone.push (by simp)
    · exact gone.push (by simp)
  | call | syscall =>
    cases moved
    exact gone.push (by simp)
  | ret =>
    dsimp only at moved
    split at moved
    · rename_i other rest shape
      cases moved
      exact gone.leave (shape.trans (List.nil_append _).symm) _
    · rename_i frame rest _ shape
      split at moved
      · cases moved
      · cases moved
        exact gone.under (shape.trans (List.nil_append _).symm)
    · cases moved
  | yield =>
    dsimp only at moved
    split at moved
    · rename_i free
      cases moved
      obtain ⟨front,rest,split,found⟩ := yield_handler sound free
      rw [found]
      exact gone.leave split _
    · cases moved
      exact gone.throw sound
  | error =>
    cases moved
    exact gone.throw sound

theorem run_abandoned (good : Good s) (gone : Abandoned co s) (ran : run step s labels = some t) :
    Abandoned co t ∧ Good t :=
  run_invariant (P := fun s => Abandoned co s ∧ Good s)
    (fun _ _ _ both moved => ⟨step_abandoned both.2 both.1 moved,step_good both.2 moved⟩) ran
    ⟨gone,good⟩

/-- An error of the main thread goes behind the innermost protected call of that thread. Every
task resumed since, up to the one that made the system call, is lost: whatever runs later, it is
neither resumed nor dead. -/
theorem main_error_abandons (labels more : List Label) (s next final : State)
    (ran : run step boot labels = some s) (main : running s.stack = mainthread)
    (failed : step s .error = some next) (later : run step next more = some final) :
    ∃ front rest, s.stack = front ++ .pcall mainthread :: rest ∧ .pcall mainthread ∉ front ∧
      next = { s with stack := rest } ∧ ∀ co, .resume co ∈ front →
        final.life co = .active ∧ .resume co ∉ final.stack ∧ running final.stack ≠ co := by
  have good := reached_good ran
  have some_ : s.stack ≠ [] := fun none => by simp [step,none] at failed
  have sound := good.sound_of some_
  have good' := step_good good failed
  obtain ⟨front,rest,split,absent,result⟩ := throw_main sound
  rw [step,if_neg some_] at failed
  dsimp only at failed
  rw [main,result] at failed
  cases failed
  refine ⟨front,rest,split,absent,rfl,fun co inner => ?_⟩
  have active := good.active co (by simp [split,inner])
  obtain ⟨inside,outside,shape⟩ := List.append_of_mem inner
  rw [split,shape,List.append_assoc] at sound
  obtain ⟨task,once⟩ := sound.resumed
  have gone : Abandoned co { s with stack := rest } :=
    ⟨active,fun member => once (by simp [show _ ∈ rest from member])⟩
  obtain ⟨gone,good⟩ := run_abandoned good' gone later
  refine ⟨gone.active,gone.left,?_⟩
  rcases good.sound with none | sound
  · rw [none]
    exact task.symm
  · exact (sound.absent task gone.left).1

/-- A system call of the resumed task fails under a `pcall` of the scheduler; the task can be
neither resumed nor found dead afterwards. -/
theorem syscall_error_abandons :
    ∃ s next final, run step boot [.pcall, .create 1, .resume 1, .syscall] = some s ∧
      step s .error = some next ∧ run step next [.create 2, .resume 2] = some final ∧
      ∃ front rest, s.stack = front ++ .pcall mainthread :: rest ∧ .pcall mainthread ∉ front ∧
        next = { s with stack := rest } ∧ ∀ co, .resume co ∈ front →
          final.life co = .active ∧ .resume co ∉ final.stack ∧ running final.stack ≠ co := by
  refine ⟨_,_,_,rfl,rfl,rfl,?_⟩
  exact main_error_abandons [.pcall, .create 1, .resume 1, .syscall] [.create 2, .resume 2]
    _ _ _ rfl rfl rfl rfl

end LuaKernel.Unwinding
