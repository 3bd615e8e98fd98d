import Mathlib.Tactic.TypeStar

/-! Counted loops as `Nat.fold`. An index-dependent invariant is carried through the
iterations, and a loop whose iterations write into separate regions leaves each
region exactly as its own iteration left it. -/
namespace LuaKernel.Loops

variable {S A V : Type*}

/-- `for (i = 0; i < n; ++i) s = body(i, s)`. -/
def loop (n : Nat) (body : Nat → S → S) (s : S) : S := Nat.fold n (fun i _ s => body i s) s

theorem loop_succ (n : Nat) (body : Nat → S → S) (s : S) :
    loop (n + 1) body s = body n (loop n body s) := by
  simp [loop]

theorem loop_one (body : Nat → S → S) (s : S) : loop 1 body s = body 0 s := by
  simp [loop]

theorem loop_invariant (property : Nat → S → Prop) (n : Nat) (body : Nat → S → S) (s : S)
    (initial : property 0 s)
    (preserved : ∀ i s, i < n → property i s → property (i + 1) (body i s)) :
    property n (loop n body s) := by
  induction n with
  | zero => exact initial
  | succ n ih =>
    rw [loop_succ]
    exact preserved n _ (by omega) (ih fun i s bound => preserved i s (by omega))

/-- Cells that no iteration touches keep their value. -/
theorem loop_frame (view : S → A → V) (body : Nat → S → S) (n : Nat) (s : S) (a : A)
    (frame : ∀ i s, i < n → view (body i s) a = view s a) :
    view (loop n body s) a = view s a :=
  loop_invariant (fun _ t => view t a = view s a) n body s rfl
    fun i t bound same => (frame i t bound).trans same

/-- Iterations with pairwise separate regions do not disturb each other: after the
loop, region `i` is as iteration `i` left it. -/
theorem loop_region (view : S → A → V) (region : Nat → A → Prop) (body : Nat → S → S)
    (n : Nat) (s : S)
    (frame : ∀ i s a, i < n → ¬region i a → view (body i s) a = view s a)
    (separate : ∀ i j a, i < n → j < n → region i a → region j a → i = j)
    (i : Nat) (bound : i < n) (a : A) (inside : region i a) :
    view (loop n body s) a = view (body i (loop i body s)) a := by
  induction n with
  | zero => omega
  | succ n ih =>
    rw [loop_succ]
    by_cases last : i = n
    · subst i; rfl
    · have outside : ¬region n a := fun other =>
        last (separate i n a bound (by omega) inside other)
      rw [frame n _ a (by omega) outside]
      exact ih (fun i s a hi => frame i s a (by omega))
        (fun i j a hi hj => separate i j a (by omega) (by omega)) (by omega)

end LuaKernel.Loops
