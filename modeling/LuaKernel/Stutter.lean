import Mathlib.Logic.Function.Iterate

/-! Two deterministic machines and a map between their states: each step of the first is a
step of the second, or leaves its image where it was. -/
namespace LuaKernel.Stutter

variable {σ τ : Type} (first : σ → σ) (second : τ → τ) (image : σ → τ)

/-- The step from `s` is a step of the second machine. -/
def Matches (s : σ) : Prop := image (first s) = second (image s)

def Stutters (s : σ) : Prop := image (first s) = image s

variable {first second image} {s : σ}

/-- Every state of the first run shows as a state of the second, no later. -/
theorem shown (steps : ∀ k, Matches first second image (first^[k] s) ∨
      Stutters first image (first^[k] s)) (n : Nat) :
    ∃ m ≤ n, image (first^[n] s) = second^[m] (image s) := by
  induction n with
  | zero => exact ⟨0,Nat.le_refl 0,rfl⟩
  | succ n ih =>
    obtain ⟨m,bound,same⟩ := ih
    rw [Function.iterate_succ_apply']
    rcases steps n with matched | hidden
    · exact ⟨m + 1,by omega,by rw [matched,same,Function.iterate_succ_apply']⟩
    · exact ⟨m,by omega,by rw [hidden,same]⟩

/-- When no two steps in a row stutter, every state of the second run is shown. -/
theorem covered (steps : ∀ k, Matches first second image (first^[k] s) ∨
      Stutters first image (first^[k] s) ∧ Matches first second image (first^[k + 1] s))
    (m : Nat) : ∃ n ≤ 2 * m, image (first^[n] s) = second^[m] (image s) := by
  induction m with
  | zero => exact ⟨0,Nat.le_refl 0,rfl⟩
  | succ m ih =>
    obtain ⟨n,bound,same⟩ := ih
    rw [Function.iterate_succ_apply']
    rcases steps n with matched | ⟨hidden,matched⟩
    · refine ⟨n + 1,by omega,?_⟩
      rw [Function.iterate_succ_apply',matched,same]
    · refine ⟨n + 2,by omega,?_⟩
      rw [Function.iterate_succ_apply',matched,Function.iterate_succ_apply',hidden,same]

end LuaKernel.Stutter
