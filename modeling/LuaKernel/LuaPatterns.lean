/-! Pattern matching as Lua's string library does it, for patterns of single characters and
repetitions `+`. A repetition is tried with the most characters first and then with one less at
a time; a search goes on behind a match, and one place further behind an empty one. -/
namespace LuaKernel.LuaPatterns

variable {α : Type}

inductive Item (α : Type)
  | one (class_ : α → Bool)
  | plus (class_ : α → Bool)

/-- The second loop of `max_expand`: `more` matches the rest of the pattern. -/
def maxExpand (more : List α → Option Nat) (s : List α) : Nat → Option Nat
  | 0 => more s
  | i + 1 =>
    match more (s.drop (i + 1)) with
    | some n => some (i + 1 + n)
    | none => maxExpand more s i

/-- `match`: how many characters the pattern takes at the front of the string. -/
def matchAt : List (Item α) → List α → Option Nat
  | [], _ => some 0
  | _ :: _, [] => none
  | .one class_ :: rest, c :: s => if class_ c then (matchAt rest s).map (· + 1) else none
  | .plus class_ :: rest, c :: s =>
    if class_ c then (maxExpand (matchAt rest) s (s.takeWhile class_).length).map (· + 1) else none

/-- The matches that `gmatch` gives in turn, when the search goes on behind the first `skip`
characters. -/
def gmatch (pattern : List (Item α)) (skip : Nat) : List α → List (List α)
  | [] => if skip = 0 ∧ (matchAt pattern []).isSome then [[]] else []
  | c :: s =>
    match skip with
    | skip + 1 => gmatch pattern skip s
    | 0 =>
      match matchAt pattern (c :: s) with
      | some n => (c :: s).take n :: gmatch pattern (max n 1 - 1) s
      | none => gmatch pattern 0 s

/-- If fewer characters lead to nothing, the most decide. -/
theorem maxExpand_greedy (more : List α → Option Nat) (s : List α) (i : Nat)
    (fewer : ∀ j, j < i → more (s.drop j) = none) :
    maxExpand more s i = (more (s.drop i)).map (i + ·) := by
  cases i with
  | zero => simp [maxExpand]
  | succ i =>
    have nothing : ∀ j, j ≤ i → maxExpand more s j = none := by
      intro j below
      induction j with
      | zero => simpa [maxExpand] using fewer 0 (by omega)
      | succ j ih => rw [maxExpand,fewer (j + 1) (by omega),ih (by omega)]
    rw [maxExpand,nothing i (Nat.le_refl i)]
    cases more (s.drop (i + 1)) <;> rfl

/-- A repetition whose characters cannot begin the rest of the pattern takes all there are. -/
theorem matchAt_plus {class_ : α → Bool} {rest : List (Item α)}
    (apart : ∀ d t, class_ d = true → matchAt rest (d :: t) = none) (c : α) (run tail : List α)
    (first : class_ c = true) (all : ∀ d ∈ run, class_ d = true)
    (ends : ∀ d t, tail = d :: t → class_ d = false) :
    matchAt (.plus class_ :: rest) (c :: (run ++ tail)) =
      (matchAt rest tail).map (run.length + · + 1) := by
  have taken : (run ++ tail).takeWhile class_ = run := by
    have nothing : tail.takeWhile class_ = [] := by
      cases tail with
      | nil => rfl
      | cons d t => simp [ends d t rfl]
    rw [List.takeWhile_append_of_pos all,nothing,List.append_nil]
  have fewer : ∀ j, j < run.length → matchAt rest ((run ++ tail).drop j) = none := by
    intro j inside
    rw [List.drop_append_of_le_length (Nat.le_of_lt inside),List.drop_eq_getElem_cons inside]
    exact apart _ _ (all _ (List.getElem_mem inside))
  rw [matchAt,if_pos first,taken,maxExpand_greedy _ _ _ fewer,List.drop_left,Option.map_map]
  rfl

theorem matchAt_plus_none (rest : List (Item α)) (s : List α) (other : class_ c = false) :
    matchAt (.plus class_ :: rest) (c :: s) = none := by
  rw [matchAt,if_neg (by simp [other])]

section Literal

variable [DecidableEq α]

def literal (text : List α) : List (Item α) := text.map fun c => .one (· == c)

theorem matchAt_literal (text s : List α) :
    matchAt (literal text) s = if text <+: s then some text.length else none := by
  induction text generalizing s with
  | nil => cases s <;> simp [literal,matchAt]
  | cons c rest ih =>
    cases s with
    | nil => simp [literal,matchAt]
    | cons d s =>
      rw [literal,List.map_cons,matchAt,← literal,ih]
      by_cases same : d = c
      · subst same
        by_cases front : rest <+: s <;> simp [front]
      · have differ : ¬(c :: rest) <+: (d :: s) := fun front =>
          same (List.cons_prefix_cons.mp front).1.symm
        simp [same,differ]

end Literal

theorem gmatch_none (missed : matchAt pattern (c :: s) = none) :
    gmatch pattern 0 (c :: s) = gmatch pattern 0 s := by
  rw [gmatch,missed]

theorem gmatch_skip (pattern : List (Item α)) (first s : List α) :
    gmatch pattern first.length (first ++ s) = gmatch pattern 0 s := by
  induction first with
  | nil => rfl
  | cons c rest ih => exact ih

theorem gmatch_some (pattern : List (Item α)) (c : α) (first s : List α)
    (found : matchAt pattern (c :: (first ++ s)) = some (first.length + 1)) :
    gmatch pattern 0 (c :: (first ++ s)) = (c :: first) :: gmatch pattern 0 s := by
  have taken : (c :: (first ++ s)).take (first.length + 1) = c :: first := by simp
  have skip : max (first.length + 1) 1 - 1 = first.length := by omega
  simp only [gmatch,found,taken,skip,gmatch_skip]

end LuaKernel.LuaPatterns
