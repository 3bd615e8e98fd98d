import Mathlib.Data.List.Perm.Subperm

/-! A hash table of chained cells, after Brent. Each key has a main position; cells are linked by
numbers, and colliding keys go to free cells found from the end. A key that is not in its main
position makes way for one that is. Values may be cleared, and a cell whose value is clear is
taken over in place, so chains of different positions may share cells. -/
namespace LuaKernel.HashChains

structure Cell (K V : Type) where
  key : Option K
  val : Option V
  next : Option Nat

/-- The cells, of which those from `lastfree` on are known to be taken. -/
structure Cells (K V : Type) where
  cell : Nat → Cell K V
  lastfree : Nat

variable {K V : Type}

/-- Look for a key along the chain from a place; the number bounds the steps. -/
def find [DecidableEq K] (cell : Nat → Cell K V) (k : K) : Nat → Option Nat → Option Nat
  | _, none => none
  | 0, some _ => none
  | steps + 1, some i =>
    if (cell i).key = some k then some i else find cell k steps (cell i).next

def freePlace (cell : Nat → Cell K V) : Nat → Option Nat
  | 0 => none
  | n + 1 => if (cell n).key.isNone then some n else freePlace cell n

/-- The cell before `mp` in the chain from a place. -/
def previous (cell : Nat → Cell K V) (mp : Nat) : Nat → Nat → Option Nat
  | 0, _ => none
  | steps + 1, i =>
    if (cell i).next = some mp then some i else (cell i).next.bind (previous cell mp steps)

def rekey (mp : Nat) (k : K) (cell : Nat → Cell K V) : Nat → Cell K V :=
  Function.update cell mp { cell mp with key := some k }

def behind (mp n : Nat) (k : K) (cell : Nat → Cell K V) : Nat → Cell K V :=
  let cell := Function.update cell n ⟨some k, (cell n).val, (cell mp).next⟩
  Function.update cell mp { cell mp with next := some n }

def displace (prev mp n : Nat) (k : K) (cell : Nat → Cell K V) : Nat → Cell K V :=
  let cell := Function.update cell prev { cell prev with next := some n }
  let cell := Function.update cell n (cell mp)
  Function.update cell mp ⟨some k, none, none⟩

/-- A cell for a new key, with its value clear; `none` if no free place is found. -/
def insert (main : K → Nat) (size : Nat) (k : K) (s : Cells K V) : Option (Nat × Cells K V) :=
  let mp := main k
  if (s.cell mp).val.isNone then some (mp, { s with cell := rekey mp k s.cell }) else do
  let n ← freePlace s.cell s.lastfree
  let other ← (s.cell mp).key
  if main other = mp then return (n, ⟨behind mp n k s.cell, n⟩) else
  let prev ← previous s.cell mp size (main other)
  return (mp, ⟨displace prev mp n k s.cell, n⟩)

inductive Chain (cell : Nat → Cell K V) : Option Nat → List Nat → Prop
  | nil : Chain cell none []
  | cons (rest : Chain cell (cell i).next l) : Chain cell (some i) (i :: l)

variable {cell cell' : Nat → Cell K V}

theorem Chain.unique (first : Chain cell o l) (second : Chain cell o m) : l = m := by
  induction first generalizing m with
  | nil => cases second; rfl
  | cons _ ih => cases second with | cons rest => rw [ih rest]

theorem Chain.suffix (chain : Chain cell o (a ++ i :: b)) : Chain cell (some i) (i :: b) := by
  induction a generalizing o with
  | nil => cases chain with | cons rest => exact .cons rest
  | cons j a ih => cases chain with | cons rest => exact ih rest

theorem Chain.nodup (chain : Chain cell o l) : l.Nodup := by
  induction chain with
  | nil => exact List.nodup_nil
  | @cons i l rest ih =>
    refine List.nodup_cons.mpr ⟨fun member => ?_,ih⟩
    obtain ⟨a,b,rfl⟩ := List.append_of_mem member
    have same := (Chain.cons rest).unique rest.suffix
    have := congrArg List.length same
    simp at this
    omega

theorem Chain.congr (chain : Chain cell o l) (same : ∀ i ∈ l, (cell' i).next = (cell i).next) :
    Chain cell' o l := by
  induction chain with
  | nil => exact .nil
  | cons _ ih =>
    refine .cons ?_
    rw [same _ (by simp)]
    exact ih fun i member => same i (by simp [member])

theorem Chain.before (chain : Chain cell o (a ++ i :: j :: b)) : (cell i).next = some j := by
  have here := chain.suffix
  cases here with
  | cons rest =>
    generalize next : (cell i).next = o at rest
    cases rest
    rfl

theorem Chain.mem_split (chain : Chain cell (some i) l) (member : j ∈ l) (other : i ≠ j) :
    ∃ a h b, l = a ++ h :: j :: b := by
  obtain ⟨a,b,rfl⟩ := List.append_of_mem member
  rcases List.eq_nil_or_concat a with rfl | ⟨front,h,rfl⟩
  · cases chain with | cons => exact absurd rfl other
  · exact ⟨front,h,b,by simp⟩

theorem find_chain [DecidableEq K] (chain : Chain cell o l) (k : K) (enough : l.length ≤ steps) :
    find cell k steps o = l.find? fun i => decide ((cell i).key = some k) := by
  induction chain generalizing steps with
  | nil => cases steps <;> rfl
  | @cons i l _ ih =>
    cases steps with
    | zero => simp at enough
    | succ steps =>
      rw [find,List.find?_cons]
      by_cases here : (cell i).key = some k
      · simp [here]
      · simp only [here,if_false,decide_false]
        exact ih (by simpa using enough)

theorem previous_chain (chain : Chain cell (some i) l) (member : mp ∈ l) (other : i ≠ mp)
    (enough : l.length ≤ steps) :
    ∃ prev ∈ l, (cell prev).next = some mp ∧ previous cell mp steps i = some prev := by
  induction l generalizing i steps with
  | nil => cases chain
  | cons h l ih =>
    cases chain with
    | cons rest =>
      cases steps with
      | zero => simp at enough
      | succ steps =>
        by_cases here : (cell h).next = some mp
        · exact ⟨h,by simp,here,by rw [previous,if_pos here]⟩
        · have later : mp ∈ l := (List.mem_cons.mp member).resolve_left (Ne.symm other)
          cases next : (cell h).next with
          | none =>
            rw [next] at rest
            cases rest
            simp at later
          | some j =>
            rw [next] at rest here
            obtain ⟨prev,inside,link,found⟩ := ih rest later (fun same => here (by rw [same]))
              (by simpa using enough)
            refine ⟨prev,by simp [inside],link,?_⟩
            rw [previous,next,if_neg here]
            exact found

theorem freePlace_some (found : freePlace cell m = some n) :
    n < m ∧ (cell n).key = none ∧ ∀ i, n < i → i < m → (cell i).key ≠ none := by
  induction m with
  | zero => cases found
  | succ m ih =>
    rw [freePlace] at found
    split at found
    · rename_i free
      cases found
      exact ⟨by omega,by simpa using free,fun i above below => by omega⟩
    · rename_i taken
      obtain ⟨below,free,others⟩ := ih found
      refine ⟨by omega,free,fun i above inside => ?_⟩
      by_cases last : i = m
      · rw [last]
        simpa using taken
      · exact others i above (by omega)

theorem freePlace_none (full : freePlace cell m = none) (inside : i < m) : (cell i).key ≠ none := by
  induction m with
  | zero => omega
  | succ m ih =>
    rw [freePlace] at full
    split at full
    · cases full
    · rename_i taken
      by_cases last : i = m
      · rw [last]
        simpa using taken
      · exact ih full (by omega)

variable {main : K → Nat} {size : Nat}

/-- Every key is on the chain of its main position, where the first cell has a key of that same
position. A cell has one link to it at most, and chains end. -/
structure Sound (main : K → Nat) (size : Nat) (s : Cells K V) : Prop where
  places : ∀ k, main k < size
  blank : ∀ {i}, (s.cell i).key = none → (s.cell i).val = none ∧ (s.cell i).next = none
  inside : ∀ {i k}, (s.cell i).key = some k → i < size
  ends : ∀ i, ∃ l, Chain s.cell (some i) l
  target : ∀ {i j}, (s.cell i).next = some j → (s.cell j).key ≠ none
  once : ∀ {i j n}, (s.cell i).next = some n → (s.cell j).next = some n → i = j
  reach : ∀ {i k l}, (s.cell i).key = some k → Chain s.cell (some (main k)) l → i ∈ l
  home : ∀ {i k}, (s.cell i).key = some k →
    ∃ k', (s.cell (main k)).key = some k' ∧ main k' = main k
  unique : ∀ {i j k}, (s.cell i).key = some k → (s.cell j).key = some k → i = j
  limit : s.lastfree ≤ size
  free : ∀ {i}, s.lastfree ≤ i → i < size → (s.cell i).key ≠ none

/-- The cells behind the first of a chain have keys. -/
theorem Sound.keyed {s : Cells K V} (sound : Sound main size s) (chain : Chain s.cell (some i) l)
    (member : j ∈ l) (other : i ≠ j) : (s.cell j).key ≠ none := by
  obtain ⟨a,h,b,rfl⟩ := chain.mem_split member other
  exact sound.target chain.before

/-- A chain from a main position fits the table. -/
theorem Sound.length {s : Cells K V} (sound : Sound main size s) (inside : i < size)
    (chain : Chain s.cell (some i) l) : l.length ≤ size := by
  have subset : l ⊆ List.range size := by
    intro j member
    rw [List.mem_range]
    by_cases same : i = j
    · omega
    · obtain ⟨k,key⟩ := Option.ne_none_iff_exists'.mp (sound.keyed chain member same)
      exact sound.inside key
  simpa using (chain.nodup.subperm subset).length_le

theorem Sound.find_iff [DecidableEq K] {s : Cells K V} (sound : Sound main size s) (k : K)
    (i : Nat) :
    find s.cell k size (some (main k)) = some i ↔ (s.cell i).key = some k := by
  obtain ⟨l,chain⟩ := sound.ends (main k)
  rw [find_chain chain k (sound.length (sound.places k) chain)]
  constructor
  · intro found
    simpa using List.find?_some found
  · intro key
    have member := sound.reach key chain
    cases found : l.find? fun i => decide ((s.cell i).key = some k) with
    | none =>
      have := List.find?_eq_none.mp found i member
      simp [key] at this
    | some j =>
      have same : (s.cell j).key = some k := by simpa using List.find?_some found
      rw [sound.unique same key]

variable {s : Cells K V} {k : K}

theorem Sound.fresh (sound : Sound main size s) (free : (s.cell n).key = none)
    (chain : Chain s.cell (some i) l) (other : i ≠ n) : n ∉ l :=
  fun member => sound.keyed chain member other free

theorem Sound.main_used (sound : Sound main size s) (free : (s.cell n).key = none)
    (key : (s.cell i).key = some k) : main k ≠ n := by
  rintro rfl
  obtain ⟨k',key',-⟩ := sound.home key
  rw [free] at key'
  cases key'

structure Free (s : Cells K V) (n : Nat) : Prop where
  key : (s.cell n).key = none
  below : n < s.lastfree
  last : ∀ {i}, n < i → i < s.lastfree → (s.cell i).key ≠ none

/-- The cells from the place on are taken once it is. -/
theorem Sound.free_below (sound : Sound main size s) (free : Free s n) (above : n ≤ i)
    (inside : i < size) (other : i ≠ n) : (s.cell i).key ≠ none := by
  by_cases old : s.lastfree ≤ i
  · exact sound.free old inside
  · exact free.last (by omega) (by omega)

theorem Sound.no_link (sound : Sound main size s) (free : Free s n) (i : Nat) :
    (s.cell i).next ≠ some n :=
  fun next => sound.target next free.key

def blank (size : Nat) : Cells K V := ⟨fun _ => ⟨none, none, none⟩, size⟩

theorem sound_blank (places : ∀ k, main k < size) : Sound main size (blank size : Cells K V) where
  places := places
  blank _ := ⟨rfl,rfl⟩
  inside := nofun
  ends i := ⟨[i],.cons .nil⟩
  target := nofun
  once := nofun
  reach := nofun
  home := nofun
  unique := nofun
  limit := Nat.le_refl size
  free above inside := by simp only [blank] at above; omega

end LuaKernel.HashChains
