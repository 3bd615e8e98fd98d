/-! Two runs of one machine: the whole of it, and the part that one observer takes part in. The
machine gives an output at each step, and the observer's steps may depend on the state. -/
namespace LuaKernel.Projection

variable {σ l o : Type} (perform : σ → l → Option (o × σ))

def replay (s : σ) : List l → Option (List o × σ)
  | [] => some ([], s)
  | label :: rest => do
    let (out, next) ← perform s label
    let (outs, final) ← replay next rest
    return (out :: outs, final)

def seen (visible : σ → l → Prop) [∀ s label, Decidable (visible s label)] (s : σ) :
    List l → List (l × o)
  | [] => []
  | label :: rest =>
    match perform s label with
    | none => []
    | some (out, next) =>
      if visible s label then (label, out) :: seen visible next rest else seen visible next rest

variable {perform}

theorem replay_cons (s final : σ) (label : l) (rest : List l) (outs : List o) :
    replay perform s (label :: rest) = some (outs, final) ↔
      ∃ out next later, perform s label = some (out, next) ∧
        replay perform next rest = some (later, final) ∧ outs = out :: later := by
  simp only [replay,Option.bind_eq_bind,Option.bind_eq_some_iff]
  constructor
  · rintro ⟨⟨out,next⟩,moved,⟨later,_⟩,rest',same⟩
    obtain ⟨rfl,rfl⟩ := by simpa using same
    exact ⟨out,next,later,moved,rest',rfl⟩
  · rintro ⟨out,next,later,moved,rest',rfl⟩
    exact ⟨(out,next),moved,(later,final),rest',rfl⟩

/-- If the visible steps can be made in a state that agrees, with the same output, and the
others go unnoticed there, then the visible steps alone are a run with the same outputs. -/
theorem replay_seen {visible : σ → l → Prop} [∀ s label, Decidable (visible s label)]
    {Agree : σ → σ → Prop}
    (matched : ∀ s t label out next, Agree s t → visible s label →
      perform s label = some (out, next) →
        ∃ next', perform t label = some (out, next') ∧ Agree next next')
    (unnoticed : ∀ s t label out next, Agree s t → ¬visible s label →
      perform s label = some (out, next) → Agree next t)
    {s t final : σ} {labels : List l} {outs : List o} (agree : Agree s t)
    (ran : replay perform s labels = some (outs, final)) :
    ∃ final', replay perform t ((seen perform visible s labels).map (·.1)) =
      some ((seen perform visible s labels).map (·.2), final') ∧ Agree final final' := by
  induction labels generalizing s t outs with
  | nil =>
    obtain ⟨-,rfl⟩ := by simpa [replay] using ran
    exact ⟨t,rfl,agree⟩
  | cons label rest ih =>
    obtain ⟨out,next,later,moved,ran',-⟩ := (replay_cons s final label rest outs).mp ran
    by_cases shown : visible s label
    · obtain ⟨next',moved',agree'⟩ := matched s t label out next agree shown moved
      obtain ⟨final',replayed,ended⟩ := ih agree' ran'
      refine ⟨final',?_,ended⟩
      simp only [seen,moved,shown,if_true,List.map_cons]
      exact (replay_cons t final' label _ _).mpr ⟨out,next',_,moved',replayed,rfl⟩
    · simp only [seen,moved,shown,if_false]
      exact ih (unnoticed s t label out next agree shown moved) ran'

end LuaKernel.Projection
