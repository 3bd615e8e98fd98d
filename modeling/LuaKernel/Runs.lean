/-! Finite runs of a machine given by a partial step function: a label names who moves, and
`none` means the move is not enabled. -/
namespace LuaKernel.Runs

variable {σ l : Type} (step : σ → l → Option σ)

def run (s : σ) : List l → Option σ
  | [] => some s
  | label :: rest => (step s label).bind fun next => run next rest

variable {step}

@[simp] theorem run_nil (s : σ) : run step s [] = some s := rfl

theorem run_cons (s t : σ) (label : l) (rest : List l) :
    run step s (label :: rest) = some t ↔
      ∃ next, step s label = some next ∧ run step next rest = some t := by
  simp [run,Option.bind_eq_some_iff]

theorem run_append (s t : σ) (first second : List l) :
    run step s (first ++ second) = some t ↔
      ∃ middle, run step s first = some middle ∧ run step middle second = some t := by
  induction first generalizing s with
  | nil => simp
  | cons label rest ih =>
    rw [List.cons_append,run_cons]
    constructor
    · rintro ⟨next,moved,later⟩
      obtain ⟨middle,before,after⟩ := (ih next).mp later
      exact ⟨middle,(run_cons s middle label rest).mpr ⟨next,moved,before⟩,after⟩
    · rintro ⟨middle,earlier,after⟩
      obtain ⟨next,moved,before⟩ := (run_cons s middle label rest).mp earlier
      exact ⟨next,moved,(ih next).mpr ⟨middle,before,after⟩⟩

/-- What holds at the start and is kept by every step holds at the end. -/
theorem run_invariant {P : σ → Prop}
    (keeps : ∀ s label next, P s → step s label = some next → P next)
    {s t : σ} {labels : List l} (ran : run step s labels = some t) (start : P s) : P t := by
  induction labels generalizing s with
  | nil => exact Option.some.inj ran ▸ start
  | cons label rest ih =>
    obtain ⟨next,moved,later⟩ := (run_cons s t label rest).mp ran
    exact ih later (keeps s label next start moved)

variable (step) in
/-- `P` holds of every label of a run, in the state the label is taken in. -/
def Along (P : σ → l → Prop) : σ → List l → Prop
  | _, [] => True
  | s, label :: rest => P s label ∧ ∀ next, step s label = some next → Along P next rest

theorem along_cons {P : σ → l → Prop} (moved : step s label = some next) :
    Along step P s (label :: rest) ↔ P s label ∧ Along step P next rest := by
  simp [Along,moved]

theorem along_of_forall {P : σ → l → Prop} {labels : List l}
    (all : ∀ label ∈ labels, ∀ s, P s label) (s : σ) : Along step P s labels := by
  induction labels generalizing s with
  | nil => trivial
  | cons label rest ih =>
    exact ⟨all label (by simp) s,
      fun next _ => ih (fun other member => all other (by simp [member])) next⟩

theorem along_and {P Q : σ → l → Prop} (first : Along step P s labels)
    (second : Along step Q s labels) :
    Along step (fun s label => P s label ∧ Q s label) s labels := by
  induction labels generalizing s with
  | nil => trivial
  | cons label rest ih =>
    exact ⟨⟨first.1,second.1⟩,fun next moved => ih (first.2 next moved) (second.2 next moved)⟩

/-- What is kept by the steps that satisfy `P` holds at the end of a run along which `P` does. -/
theorem along_invariant {P : σ → l → Prop} {I : σ → Prop}
    (keeps : ∀ s label next, I s → P s label → step s label = some next → I next)
    {s t : σ} {labels : List l} (along : Along step P s labels)
    (ran : run step s labels = some t) (start : I s) : I t := by
  induction labels generalizing s with
  | nil => exact Option.some.inj ran ▸ start
  | cons label rest ih =>
    obtain ⟨next,moved,later⟩ := (run_cons s t label rest).mp ran
    exact ih (along.2 next moved) later (keeps s label next start along.1 moved)

/-- The same with the labels so far: what the history says of the state is extended by one
label at a time. -/
theorem along_history {P : σ → l → Prop} {H : List l → σ → Prop} {s t : σ} {labels : List l}
    (start : H [] s)
    (extend : ∀ history s label next, H history s → P s label → step s label = some next →
      H (history ++ [label]) next)
    (along : Along step P s labels) (ran : run step s labels = some t) : H labels t := by
  suffices general : ∀ rest history s, H history s → Along step P s rest →
      run step s rest = some t → H (history ++ rest) t from by
    simpa using general labels [] s start along ran
  intro rest
  induction rest with
  | nil =>
    intro history s holds _ ended
    rw [List.append_nil]
    exact Option.some.inj ended ▸ holds
  | cons label rest ih =>
    intro history s holds along ended
    obtain ⟨next,moved,later⟩ := (run_cons s t label rest).mp ended
    have extended := extend history s label next holds along.1 moved
    simpa using ih (history ++ [label]) next extended (along.2 next moved) later

theorem run_history {P : List l → σ → Prop} (allowed : l → Prop) {s t : σ} {labels : List l}
    (start : P [] s)
    (extend : ∀ history s label next, P history s → allowed label → step s label = some next →
      P (history ++ [label]) next)
    (all : ∀ label ∈ labels, allowed label) (ran : run step s labels = some t) : P labels t :=
  along_history (P := fun _ label => allowed label) start extend
    (along_of_forall (fun label member _ => all label member) s) ran

/-- Two properties that agree wherever an invariant holds agree along a run, if the first of
them is what keeps the invariant. -/
theorem along_iff {P Q : σ → l → Prop} {I : σ → Prop}
    (same : ∀ s label, I s → (P s label ↔ Q s label))
    (keeps : ∀ s label next, I s → P s label → step s label = some next → I next)
    {s : σ} (start : I s) (labels : List l) : Along step P s labels ↔ Along step Q s labels := by
  induction labels generalizing s with
  | nil => exact Iff.rfl
  | cons label rest ih =>
    have here := same s label start
    constructor
    · rintro ⟨now,later⟩
      exact ⟨here.mp now,fun next moved =>
        (ih (keeps s label next start now moved)).mp (later next moved)⟩
    · rintro ⟨now,later⟩
      exact ⟨here.mpr now,fun next moved =>
        (ih (keeps s label next start (here.mpr now) moved)).mpr (later next moved)⟩

end LuaKernel.Runs
