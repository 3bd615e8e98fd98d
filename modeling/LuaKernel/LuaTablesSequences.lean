import LuaKernel.LuaTablesLength

/-! Tables as sequences. A table that is changed by `table.insert` and `table.remove` only is a
list: they insert and remove at a position, and `#` is the length. The kernel keeps its tasks, the
descriptors of a file and the lines of the terminal so. -/
namespace LuaKernel.LuaTables

open HashChains

variable {K V : Type} [DecidableEq K] {h : Hashing K} {t t' : Table K V} {f g : Nat → Option V}

theorem slots_small : 2 ^ MAXBITS < 2 ^ 31 := by decide

/-- All keys are slots up to `e`, with these values. -/
structure Slots (h : Hashing K) (t : Table K V) (e : Nat) (f : Nat → Option V) : Prop where
  valid : Valid h t
  below : ∀ {k v}, get h t k = some v → ∃ i, 0 < i ∧ i ≤ e ∧ k = h.number i
  value : ∀ {i}, 0 < i → i < 2 ^ 31 → get h t (h.number i) = f i

theorem Slots.congr (slots : Slots h t e f) (same : ∀ i, 0 < i → f i = g i) : Slots h t e g :=
  ⟨slots.valid,slots.below,fun positive small => (slots.value positive small).trans
    (same _ positive)⟩

theorem Slots.mono (slots : Slots h t e f) (le : e ≤ n) : Slots h t n f where
  valid := slots.valid
  below found := by
    obtain ⟨i,positive,bound,key⟩ := slots.below found
    exact ⟨i,positive,bound.trans le,key⟩
  value := slots.value

theorem Slots.shrink (slots : Slots h t e f) (small : e < 2 ^ 31)
    (clear : ∀ i, n < i → f i = none) : Slots h t n f where
  valid := slots.valid
  below {k v} found := by
    obtain ⟨i,positive,bound,rfl⟩ := slots.below found
    refine ⟨i,positive,?_,rfl⟩
    by_contra above
    rw [slots.value positive (by omega),clear i (by omega)] at found
    cases found
  value := slots.value

theorem Slots.few (slots : Slots h t e f) : (entries h t).length ≤ e := by
  have bound := entries_length slots.valid ((List.range e).map fun i => h.number (i + 1))
    fun k v found => by
      obtain ⟨i,positive,below,rfl⟩ := slots.below found
      exact List.mem_map.mpr ⟨i - 1,List.mem_range.mpr (by omega),by
        rw [Nat.sub_add_cancel positive]⟩
  have dedup := (List.dedup_sublist ((List.range e).map fun i => h.number (i + 1))).length_le
  simp only [List.length_map,List.length_range] at dedup
  omega

omit [DecidableEq K] in
theorem number_eq (positive : 0 < j) (small : j < 2 ^ 31) (small' : i < 2 ^ 31)
    (same : h.number j = h.number i) : j = i := by
  have index := h.index_number positive small
  rw [same] at index
  by_cases zero : i = 0
  · rw [zero,h.index_zero] at index
    cases index
  · rw [h.index_number (by omega) small'] at index
    exact (Option.some.inj index).symm

theorem Slots.store (slots : Slots h t e f) (few : e < 2 ^ MAXBITS) (small : i < 2 ^ 31)
    (inside : v ≠ none → 0 < i ∧ i ≤ e) :
    ∃ t', store h t (h.number i) v = some t' ∧ Slots h t' e (Function.update f i v) := by
  obtain ⟨t',stored,valid,read⟩ := store_stored slots.valid (by have := slots.few; omega)
    (h.number i) v
  refine ⟨t',stored,valid,fun {k w} found => ?_,fun {j} positive small' => ?_⟩
  · rw [read] at found
    split_ifs at found with same
    · obtain ⟨positive,bound⟩ := inside (by simp [found])
      exact ⟨i,positive,bound,same⟩
    · exact slots.below found
  · rw [read,Function.update_apply]
    by_cases same : j = i
    · rw [same,if_pos rfl,if_pos rfl]
    · rw [if_neg same,if_neg fun equal => same (number_eq positive small' small equal)]
      exact slots.value positive small'

/-- Moving up, from the last slot on, so that no value is read after it was overwritten. -/
theorem Slots.moveUp (slots : Slots h t e f) (few : e < 2 ^ MAXBITS) (positive : 0 < pos)
    (bound : pos + n ≤ e) :
    ∃ t', moveUp h pos n t = some t' ∧
      Slots h t' e fun i => if pos < i ∧ i ≤ pos + n then f (i - 1) else f i := by
  induction n generalizing t f with
  | zero =>
    refine ⟨t,rfl,slots.congr fun i _ => ?_⟩
    rw [if_neg (by omega)]
  | succ n ih =>
    have small := few.trans slots_small
    rw [LuaTables.moveUp,slots.value (by omega) (by omega)]
    obtain ⟨t1,stored,slots1⟩ := slots.store few (i := pos + n + 1) (v := f (pos + n)) (by omega)
      fun _ => by omega
    obtain ⟨t',moved,slots'⟩ := ih slots1 (by omega)
    refine ⟨t',by rw [stored]; exact moved,slots'.congr fun i _ => ?_⟩
    simp only [Function.update_apply]
    by_cases last : i = pos + n + 1
    · subst last
      rw [if_neg (by omega),if_pos rfl,if_pos (by omega)]
      rfl
    · by_cases moving : pos < i ∧ i ≤ pos + n
      · rw [if_pos moving,if_neg (by omega),if_pos (by omega)]
      · rw [if_neg moving,if_neg last,if_neg (by omega)]

theorem Slots.moveDown (slots : Slots h t e f) (few : e < 2 ^ MAXBITS) (positive : 0 < pos)
    (bound : pos + n ≤ e) :
    ∃ t', moveDown h pos n t = some t' ∧
      Slots h t' e fun i => if pos ≤ i ∧ i < pos + n then f (i + 1) else f i := by
  induction n generalizing t f pos with
  | zero =>
    refine ⟨t,rfl,slots.congr fun i _ => ?_⟩
    rw [if_neg (by omega)]
  | succ n ih =>
    have small := few.trans slots_small
    rw [LuaTables.moveDown,slots.value (by omega) (by omega)]
    obtain ⟨t1,stored,slots1⟩ := slots.store few (i := pos) (v := f (pos + 1)) (by omega)
      fun _ => by omega
    obtain ⟨t',moved,slots'⟩ := ih slots1 (by omega : 0 < pos + 1) (by omega)
    refine ⟨t',by rw [stored]; exact moved,slots'.congr fun i _ => ?_⟩
    simp only [Function.update_apply]
    by_cases first : i = pos
    · subst first
      rw [if_neg (by omega),if_pos rfl,if_pos (by omega)]
    · by_cases moving : pos + 1 ≤ i ∧ i < pos + 1 + n
      · rw [if_pos moving,if_neg (by omega),if_pos (by omega)]
      · rw [if_neg moving,if_neg first,if_neg (by omega)]

def Holds (h : Hashing K) (t : Table K V) (l : List V) : Prop :=
  Slots h t l.length fun i => l[i - 1]?

theorem holds_new (h : Hashing K) : Holds h (new : Table K V) [] :=
  ⟨valid_new h,fun found => by simp [get_new] at found,fun _ _ => by simp [get_new]⟩

theorem Holds.getn (holds : Holds h t l) (few : l.length < 2 ^ MAXBITS) : getn h t = l.length := by
  obtain ⟨edge,small⟩ := getn_edge holds.valid (Nat.lt_of_le_of_lt holds.few few)
  have limit : MAX_INT < 2 ^ 31 := by decide
  have above : l.length ≤ LuaTables.getn h t := by
    have next := edge.next
    rw [present,holds.value (by omega) (by omega)] at next
    simpa using next
  rcases edge.last with zero | here
  · omega
  · by_cases zero : LuaTables.getn h t = 0
    · omega
    · rw [present,holds.value (by omega) (by omega)] at here
      simp at here
      omega

inductive Op (V : Type)
  | insert (pos : Option Int) (v : V)
  | remove (pos : Option Int)

def perform (h : Hashing K) (t : Table K V) : Op V → Option (Table K V × Result V)
  | .insert pos v => tinsert h t pos v
  | .remove pos => tremove h t pos

/-- The operation on a list, at the position that the call makes of the number it is given. -/
def listStep (l : List V) : Op V → List V × Result V
  | .insert none v => (l ++ [v], .done)
  | .insert (some pos) v =>
    let pos := checkint pos
    if 1 ≤ pos ∧ pos ≤ l.length + 1 then (l.insertIdx (pos.toNat - 1) v, .done)
    else (l, .badArgument 2 "position out of bounds")
  | .remove pos =>
    let pos := (pos.map checkint).getD l.length
    if pos = l.length ∨ 1 ≤ pos ∧ pos ≤ l.length + 1 then
      (l.eraseIdx (pos.toNat - 1), .value l[pos.toNat - 1]?)
    else (l, .badArgument 1 "position out of bounds")

theorem Holds.append (holds : Holds h t l) (few : l.length + 1 < 2 ^ MAXBITS) (v : V) :
    ∃ t', LuaTables.store h t (h.number (l.length + 1)) (some v) = some t' ∧
      Holds h t' (l ++ [v]) := by
  have power := slots_small
  obtain ⟨t',stored,slots⟩ := (Slots.mono holds (Nat.le_succ _)).store few (i := l.length + 1)
    (v := some v) (by omega) fun _ => by omega
  refine ⟨t',stored,?_⟩
  unfold Holds
  rw [List.length_append]
  refine slots.congr fun i positive => ?_
  simp only [Function.update_apply,List.getElem?_append]
  by_cases last : i = l.length + 1
  · simp [last]
  · rw [if_neg last]
    split
    · rfl
    · rw [List.getElem?_eq_none (by omega),List.getElem?_eq_none (by simp; omega)]

theorem Holds.insert (holds : Holds h t l) (few : l.length + 1 < 2 ^ MAXBITS) (pos : Nat)
    (positive : 0 < pos) (bound : pos ≤ l.length + 1) (v : V) :
    ∃ t', (LuaTables.moveUp h pos (l.length + 1 - pos) t).bind
        (fun t => LuaTables.store h t (h.number pos) (some v)) = some t' ∧
      Holds h t' (l.insertIdx (pos - 1) v) := by
  have power := slots_small
  obtain ⟨t1,moved,slots1⟩ := (Slots.mono holds (Nat.le_succ _)).moveUp few positive
    (n := l.length + 1 - pos) (by omega)
  obtain ⟨t',stored,slots⟩ := slots1.store few (i := pos) (v := some v) (by omega)
    fun _ => ⟨positive,bound⟩
  refine ⟨t',by rw [moved]; exact stored,?_⟩
  unfold Holds
  rw [List.length_insertIdx_of_le_length (by omega)]
  refine slots.congr fun i here => ?_
  simp only [Function.update_apply,List.getElem?_insertIdx]
  by_cases same : i = pos
  · subst same
    rw [if_pos rfl,if_neg (by omega),if_pos rfl,if_pos (by omega)]
  · rw [if_neg same]
    by_cases before : i < pos
    · rw [if_neg (by omega),if_pos (by omega)]
    · rw [if_neg (by omega : ¬ i - 1 < pos - 1),if_neg (by omega : ¬ i - 1 = pos - 1)]
      split
      · rfl
      · rw [List.getElem?_eq_none (by omega),List.getElem?_eq_none (by omega)]

theorem Holds.remove (holds : Holds h t l) (few : l.length + 1 < 2 ^ MAXBITS) (pos : Nat)
    (inside : pos = l.length ∨ 0 < pos ∧ pos ≤ l.length + 1) :
    ∃ t', (LuaTables.moveDown h pos (l.length - pos) t).bind
        (fun t => LuaTables.store h t (h.number (max pos l.length)) none) = some t' ∧
      Holds h t' (l.eraseIdx (pos - 1)) := by
  have power := slots_small
  obtain ⟨t1,moved,slots1⟩ : ∃ t1, LuaTables.moveDown h pos (l.length - pos) t = some t1 ∧
      Slots h t1 l.length fun i => if pos ≤ i ∧ i < l.length then l[i]? else l[i - 1]? := by
    by_cases last : l.length ≤ pos
    · refine ⟨t,by rw [Nat.sub_eq_zero_of_le last]; rfl,Slots.congr holds fun i _ => ?_⟩
      rw [if_neg (by omega)]
    · obtain ⟨t1,moved,slots1⟩ := Slots.moveDown holds (by omega) (by omega : 0 < pos)
        (n := l.length - pos) (by omega)
      refine ⟨t1,moved,slots1.congr fun i _ => ?_⟩
      rw [Nat.add_sub_cancel' (by omega),Nat.add_sub_cancel]
  obtain ⟨t',stored,slots⟩ := slots1.store (by omega) (i := max pos l.length) (v := none) (by omega)
    (by simp)
  refine ⟨t',by rw [moved]; exact stored,?_⟩
  have same : ∀ i, 0 < i → Function.update
      (fun i => if pos ≤ i ∧ i < l.length then l[i]? else l[i - 1]?) (max pos l.length) none i =
        (l.eraseIdx (pos - 1))[i - 1]? := by
    intro i positive
    simp only [Function.update_apply,List.getElem?_eraseIdx]
    by_cases end_ : i = max pos l.length
    · rw [if_pos end_]
      split
      · rw [List.getElem?_eq_none (by omega)]
      · rw [List.getElem?_eq_none (by omega)]
    · rw [if_neg end_]
      by_cases before : i - 1 < pos - 1
      · rw [if_neg (by omega),if_pos before]
      · rw [if_neg before,Nat.sub_add_cancel positive]
        split
        · rfl
        · rw [List.getElem?_eq_none (by omega),List.getElem?_eq_none (by omega)]
  unfold Holds
  refine (slots.congr same).shrink (by omega) fun i above => ?_
  exact List.getElem?_eq_none (by omega)

/-- Each operation does to the table what it does to the list, and returns the same. -/
theorem Holds.perform (holds : Holds h t l) (few : l.length + 1 < 2 ^ MAXBITS) (op : Op V) :
    ∃ t', perform h t op = some (t', (listStep l op).2) ∧ Holds h t' (listStep l op).1 := by
  have power := slots_small
  have length := holds.getn (by omega)
  cases op with
  | insert pos v =>
    cases pos with
    | none =>
      obtain ⟨t',stored,holds'⟩ := holds.append few v
      exact ⟨t',by simp [LuaTables.perform,tinsert,length,stored,listStep],holds'⟩
    | some pos =>
      simp only [LuaTables.perform,tinsert,length,listStep,Nat.cast_add,Nat.cast_one]
      generalize checkint pos = pos
      split
      · rename_i inside
        obtain ⟨t',stored,holds'⟩ := holds.insert few pos.toNat (by omega) (by omega) v
        exact ⟨t',by rw [stored]; rfl,holds'⟩
      · exact ⟨t,rfl,holds⟩
  | remove pos =>
    simp only [LuaTables.perform,tremove,length,listStep]
    generalize (pos.map checkint).getD (l.length : Int) = pos
    split
    · rename_i inside
      obtain ⟨t',stored,holds'⟩ := holds.remove few pos.toNat (by omega)
      refine ⟨t',?_,holds'⟩
      have result : get h t (h.number pos.toNat) = l[pos.toNat - 1]? := by
        by_cases zero : pos.toNat = 0
        · have empty : l = [] := List.length_eq_zero_iff.mp (by omega)
          subst empty
          rw [List.getElem?_nil]
          by_contra found
          obtain ⟨v,value⟩ := Option.ne_none_iff_exists'.mp found
          obtain ⟨i,positive,bound,-⟩ := holds.below value
          simp at bound
          omega
        · exact holds.value (by omega) (by omega)
      rw [stored,result]
      rfl
    · exact ⟨t,rfl,holds⟩

theorem listStep_length (l : List V) (op : Op V) : (listStep l op).1.length ≤ l.length + 1 := by
  unfold listStep
  split
  · simp
  · dsimp only
    split
    · rw [List.length_insertIdx]
      split <;> omega
    · simp
  · dsimp only
    split
    · exact (List.length_eraseIdx_le l _).trans (Nat.le_succ _)
    · simp

def performAll (h : Hashing K) (t : Table K V) : List (Op V) → Option (Table K V × List (Result V))
  | [] => some (t, [])
  | op :: rest => do
    let (t, result) ← perform h t op
    let (t, results) ← performAll h t rest
    return (t, result :: results)

def listRun (l : List V) : List (Op V) → List V × List (Result V)
  | [] => (l, [])
  | op :: rest =>
    ((listRun (listStep l op).1 rest).1, (listStep l op).2 :: (listRun (listStep l op).1 rest).2)

theorem Holds.run (holds : Holds h t l) (ops : List (Op V))
    (few : l.length + ops.length < 2 ^ MAXBITS) :
    ∃ t', performAll h t ops = some (t', (listRun l ops).2) ∧ Holds h t' (listRun l ops).1 ∧
      (listRun l ops).1.length < 2 ^ MAXBITS := by
  induction ops generalizing t l with
  | nil => exact ⟨t,rfl,holds,by simpa [listRun] using few⟩
  | cons op rest ih =>
    rw [List.length_cons] at few
    obtain ⟨t1,performed,holds1⟩ := holds.perform (by omega) op
    have grown := listStep_length l op
    obtain ⟨t',ran,holds',few'⟩ := ih holds1 (by omega)
    refine ⟨t',?_,holds',few'⟩
    simp [performAll,performed,ran,listRun]

/-- From an empty table, any run of insertions and removals returns what it returns on a list,
and leaves the list in the table, with its length. -/
theorem sequences_refine (h : Hashing K) (ops : List (Op V)) (few : ops.length < 2 ^ MAXBITS) :
    ∃ t, performAll h new ops = some (t, (listRun [] ops).2) ∧
      getn h t = (listRun [] ops).1.length ∧
      ∀ i, 0 < i → i < 2 ^ 31 → get h t (h.number i) = (listRun [] ops).1[i - 1]? := by
  obtain ⟨t,ran,holds,small⟩ := (holds_new h).run ops (by simpa using few)
  exact ⟨t,ran,holds.getn small,fun i positive bound => holds.value positive bound⟩

/-- Two lines, one before the other at a position that is cut to 1, and the last one taken
back. -/
theorem lines_refine :
    ∃ t, performAll residues new
        [.insert none "a", .insert (some (2 ^ 32 + 1)) "b", .remove none, .remove (some 4)] =
        some (t, [.done, .done, .value (some "a"), .badArgument 1 "position out of bounds"]) ∧
      getn residues t = 1 ∧ get residues t 1 = some "b" := by
  obtain ⟨t,ran,length,slots⟩ := sequences_refine residues
    [.insert none "a", .insert (some (2 ^ 32 + 1)) "b", .remove none, .remove (some 4)] (by decide)
  exact ⟨t,ran,length,slots 1 (by decide) (by decide)⟩

end LuaKernel.LuaTables
