import LuaKernel.FileRecords
import LuaKernel.Projection

/-! Files do not interfere. A run is put beside the run of the operations on one path alone; as
records are reached by reference, this rests on no two paths sharing one. -/
namespace LuaKernel.Records

open Files Projection

/-- Descriptor `fd` is open on the record of `path`. -/
def Of (path : String) (h : Heap) (fd : Nat) : Prop :=
  ∃ d, h.fds fd = some d ∧ h.fs path = some d.top

instance Of.decidable (path : String) (h : Heap) (fd : Nat) : Decidable (Of path h fd) :=
  match opened : h.fds fd with
  | none => isFalse (by rintro ⟨_,found,-⟩; simp [opened] at found)
  | some d => decidable_of_iff (h.fs path = some d.top) (by simp [Of,opened])

/-- The operations on a path: opening it, and whatever goes through its descriptors. -/
def On (path : String) (h : Heap) : Op → Prop
  | .open_ pathname _ _ _ => pathname = path
  | .on fd _ => Of path h fd

instance On.decidable (path : String) (h : Heap) (op : Op) : Decidable (On path h op) := by
  cases op <;> unfold On <;> infer_instance

/-- The content of the file at a path, what a descriptor sees of it, and its position. -/
def content (h : Heap) (path : String) : Option Strings.Bytes :=
  (h.fs path).bind fun record => (h.records record).map (·.buf)

def contentOf (h : Heap) (fd : Nat) : Option Strings.Bytes :=
  (h.fds fd).bind fun d => (h.records d.top).map (·.buf)

def position (h : Heap) (path : String) (fd : Nat) : Option Int :=
  (h.fds fd).bind fun d => if h.fs path = some d.top then some d.pos else none

/-- Two heaps that agree on one path: its record and its descriptors are the same, and every
address that is unused in the first is unused in the second. -/
structure Agree (path : String) (h k : Heap) : Prop where
  separate : Separate h
  separate' : Separate k
  fs : k.fs path = h.fs path
  record : h.fs path = some top → k.records top = h.records top
  fds : h.fs path = some d.top → (k.fds fd = some d ↔ h.fds fd = some d)
  unusedRecord : h.records address = none → k.records address = none
  unusedFd : h.fds fd = none → k.fds fd = none

section Update

variable {α : Type} {f g : Nat → Option α}

theorem update_same (same : f key = some x ↔ g key = some x) :
    Function.update f slot v key = some x ↔ Function.update g slot v key = some x := by
  by_cases here : key = slot <;> simp [here,same]

theorem update_unused (unused : g key = none → f key = none)
    (empty : Function.update g slot v key = none) : Function.update f slot v key = none := by
  by_cases here : key = slot
  · simpa [here] using empty
  · simpa [here] using unused (by simpa [here] using empty)

theorem unused_of_update (empty : Function.update g slot (some x) key = none) : g key = none := by
  by_cases here : key = slot
  · simp [here] at empty
  · simpa [here] using empty

end Update

/-- Nothing refers to the address of a new record. -/
theorem Separate.unreferred (separate : Separate h) (unused : h.records d.top = none) :
    h.fds fd ≠ some d := by
  intro opened
  obtain ⟨path,found⟩ := separate.owned opened
  exact separate.new unused found

theorem Agree.matched (agree : Agree path h k) (on : On path h op)
    (done : Performs h op answer next) :
    ∃ next', Performs k op answer next' ∧ Agree path next next' := by
  have separate := agree.separate.step done
  cases done with
  | missing absent noCreate newRecord newFd =>
    obtain rfl := on
    exact ⟨k,.missing (agree.fs.trans absent) noCreate (agree.unusedRecord newRecord)
      (agree.unusedFd newFd),agree⟩
  | @created pathname flags record fd absent create newRecord newFd =>
    obtain rfl := on
    have newRecord' := agree.unusedRecord newRecord
    have done' : Performs k (.open_ pathname flags record fd) _ _ :=
      .created (agree.fs.trans absent) create newRecord' (agree.unusedFd newFd)
    refine ⟨_,done',separate,agree.separate'.step done',?_,?_,?_,?_,?_⟩
    · simp
    · intro record found
      obtain rfl := by simpa using found
      simp
    · intro d fd found
      have top := by simpa using found
      refine update_same (iff_of_false ?_ ?_)
      · exact agree.separate'.unreferred (top ▸ newRecord')
      · exact agree.separate.unreferred (top ▸ newRecord)
    · exact update_unused agree.unusedRecord
    · exact update_unused agree.unusedFd
  | @reopened pathname top record fd flags present newRecord newFd =>
    obtain rfl := on
    have done' : Performs k (.open_ pathname flags record fd) _ _ :=
      .reopened (agree.fs.trans present) (agree.unusedRecord newRecord) (agree.unusedFd newFd)
    exact ⟨_,done',separate,agree.separate'.step done',agree.fs,agree.record,
      fun found => update_same (agree.fds found),agree.unusedRecord,
      update_unused agree.unusedFd⟩
  | @on fd d file what opened found =>
    obtain ⟨_,opened',here⟩ := on
    obtain rfl := Option.some.inj (opened.symm.trans opened')
    have done' : Performs k (.on fd what) _ _ :=
      .on ((agree.fds here).mpr opened) ((agree.record here).trans found)
    refine ⟨_,done',separate,agree.separate'.step done',agree.fs,?_,?_,?_,?_⟩
    · intro record here'
      obtain rfl := Option.some.inj (here.symm.trans here')
      simp
    · exact fun found => update_same (agree.fds found)
    · exact update_unused agree.unusedRecord
    · exact update_unused agree.unusedFd

/-- A descriptor changed or made for another path is none of this one's. -/
theorem Agree.update_other (agree : Agree path h k) (other : h.fs path ≠ some top)
    (none_of : ∀ d, h.fs path = some d.top → h.fds slot ≠ some d)
    (found : h.fs path = some d.top) :
    k.fds fd = some d ↔ Function.update h.fds slot (some ⟨top, pos⟩) fd = some d := by
  by_cases here : fd = slot
  · subst here
    refine iff_of_false (fun opened => none_of d found ((agree.fds found).mp opened)) ?_
    intro made
    obtain rfl := by simpa using made
    exact other found
  · simpa [here] using agree.fds found

theorem Agree.unnoticed (agree : Agree path h k) (notOn : ¬On path h op)
    (done : Performs h op answer next) : Agree path next k := by
  have separate := agree.separate.step done
  cases done with
  | missing => exact agree
  | @created pathname flags record fd absent create newRecord newFd =>
    have different : path ≠ pathname := fun same => notOn same.symm
    refine ⟨separate,agree.separate',?_,?_,?_,?_,?_⟩
    · simpa [different] using agree.fs
    · intro top found
      have found' : h.fs path = some top := by simpa [different] using found
      have old : top ≠ record := fun same => agree.separate.new newRecord (same ▸ found')
      simpa [old] using agree.record found'
    · intro d fd found
      refine agree.update_other (agree.separate.new newRecord) ?_
        (by simpa [different] using found)
      simp [newFd]
    · exact fun empty => agree.unusedRecord (unused_of_update empty)
    · exact fun empty => agree.unusedFd (unused_of_update empty)
  | reopened present newRecord newFd =>
    refine ⟨separate,agree.separate',agree.fs,agree.record,?_,agree.unusedRecord,?_⟩
    · intro d fd found
      refine agree.update_other (fun same => ?_) (by simp [newFd]) found
      exact notOn (agree.separate.apart present same)
    · exact fun empty => agree.unusedFd (unused_of_update empty)
  | @on fd d file what opened present =>
    have other : h.fs path ≠ some d.top := fun same => notOn ⟨_,opened,same⟩
    refine ⟨separate,agree.separate',agree.fs,?_,?_,?_,?_⟩
    · intro top found
      have different : top ≠ d.top := fun same => other (same ▸ found)
      simpa [different] using agree.record found
    · intro d fd found
      refine agree.update_other other (fun e here opened' => ?_) found
      exact notOn ⟨e,opened',here⟩
    · exact fun empty => agree.unusedRecord (unused_of_update empty)
    · exact fun empty => agree.unusedFd (unused_of_update empty)

theorem Agree.content (agree : Agree path h k) : content k path = content h path := by
  cases found : h.fs path with
  | none => simp [Records.content,agree.fs,found]
  | some record => simp [Records.content,agree.fs,found,agree.record found]

theorem Agree.position (agree : Agree path h k) (fd : Nat) :
    position k path fd = position h path fd := by
  apply Option.ext
  intro pos
  simp only [Records.position,agree.fs,Option.bind_eq_some_iff,Option.ite_none_right_eq_some,
    Option.some.injEq]
  constructor
  · rintro ⟨d,opened,found,same⟩
    exact ⟨d,(agree.fds found).mp opened,found,same⟩
  · rintro ⟨d,opened,found,same⟩
    exact ⟨d,(agree.fds found).mpr opened,found,same⟩

theorem Of.content (of : Of path h fd) : contentOf h fd = content h path := by
  obtain ⟨d,opened,found⟩ := of
  simp [contentOf,Records.content,opened,found]

/-- An operation through one descriptor of a path leaves another where it is. -/
theorem Of.other (first : Of path h fd) (second : Of path h fd') (different : fd ≠ fd')
    (done : Performs h (.on fd what) answer next) :
    Of path next fd ∧ Of path next fd' ∧ position next path fd' = position h path fd' := by
  obtain ⟨d,opened,found⟩ := first
  obtain ⟨d',opened',found'⟩ := second
  cases done with
  | on here =>
    obtain rfl := Option.some.inj (opened.symm.trans here)
    refine ⟨⟨_,Function.update_self _ _ _,found⟩,⟨d',?_,found'⟩,?_⟩
    · simpa [different.symm] using opened'
    · simp [Records.position,different.symm]

/-- The results of the operations on a path, its content and the positions of its descriptors
are those of the run of these operations alone; and two descriptors of a path see one
content, each from its own position. -/
theorem files_independent (start : Heap) (separate : Separate start) (path : String)
    (ops : List Op) (answers : List Answer) (final : Heap)
    (ran : replay perform start ops = some (answers, final)) :
    (∃ final', replay perform start ((seen perform (On path) start ops).map (·.1)) =
        some ((seen perform (On path) start ops).map (·.2), final') ∧
      content final' path = content final path ∧
      ∀ fd, position final' path fd = position final path fd) ∧
    ∀ fd fd', Of path final fd → Of path final fd' → fd ≠ fd' →
      contentOf final fd = contentOf final fd' ∧
      ∀ what answer next, perform final (.on fd what) = some (answer, next) →
        contentOf next fd = contentOf next fd' ∧
        position next path fd' = position final path fd' := by
  have start_agree : Agree path start start :=
    ⟨separate,separate,rfl,fun _ => rfl,fun _ => Iff.rfl,id,id⟩
  obtain ⟨final',replayed,agree⟩ := replay_seen
    (fun h k op answer next (agree : Agree path h k) on done => by
      obtain ⟨next',done',agree'⟩ := agree.matched on ((performs_iff h next op answer).mp done)
      exact ⟨next',(performs_iff k next' op answer).mpr done',agree'⟩)
    (fun h k op answer next agree notOn done =>
      agree.unnoticed notOn ((performs_iff h next op answer).mp done))
    start_agree ran
  refine ⟨⟨final',replayed,agree.content,agree.position⟩,?_⟩
  intro fd fd' first second different
  refine ⟨first.content.trans second.content.symm,?_⟩
  intro what answer next done
  obtain ⟨first',second',kept⟩ :=
    first.other second different ((performs_iff final next (.on fd what) answer).mp done)
  exact ⟨first'.content.trans second'.content.symm,kept⟩

def interleaved : List Op :=
  [.open_ "/a" 64 2 0, .open_ "/b" 64 3 1, .on 1 (.write [98, 98]), .on 0 (.write [97]),
    .open_ "/a" 0 4 2, .on 1 (.lseek 0 0), .on 2 (.read 5)]

theorem interleaved_independent : ∃ answers final final',
    replay perform boot interleaved = some (answers, final) ∧
      replay perform boot [.open_ "/a" 64 2 0, .on 0 (.write [97]), .open_ "/a" 0 4 2,
        .on 2 (.read 5)] =
        some ([.opened (some 0), .written 1, .opened (some 2), .data (.str [97])], final') ∧
      content final' "/a" = content final "/a" ∧
      position final' "/a" 0 = position final "/a" 0 := by
  obtain ⟨⟨answers,final⟩,ran⟩ : ∃ result, replay perform boot interleaved = some result := ⟨_,rfl⟩
  obtain ⟨⟨final',replayed,same,positions⟩,-⟩ :=
    files_independent boot boot_separate "/a" interleaved answers final ran
  exact ⟨answers,final,final',ran,replayed,same,positions 0⟩

end LuaKernel.Records
