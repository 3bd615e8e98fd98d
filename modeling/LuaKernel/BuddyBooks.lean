import Mathlib.Algebra.GroupWithZero.Nat
import LuaKernel.Buddies

/-! The books of a buddy allocator: the tiles checked out, by first block, and the free tiles, by
log size and in list order. Every operation is a short sequence of moves, each of which takes one
tile in hand, changes it or puts it down; in between, the tile in hand completes the tiling. -/
namespace LuaKernel.Buddies

structure Books where
  out : Nat → Option Nat
  free : Nat → List Nat

namespace Books

def freeTiles (b : Books) : Set (Nat × Nat) := {t | t.1 ∈ b.free t.2}

def tiles (b : Books) : Set (Nat × Nat) := {t | b.out t.1 = some t.2 ∨ t.1 ∈ b.free t.2}

def add (b : Books) (i k : Nat) : Books :=
  { b with free := Function.update b.free k (i :: b.free k) }

def remove (b : Books) (i k : Nat) : Books :=
  { b with free := Function.update b.free k ((b.free k).erase i) }

def checkout (b : Books) (i k : Nat) : Books := { b with out := Function.update b.out i (some k) }

def release (b : Books) (i : Nat) : Books := { b with out := Function.update b.out i none }

variable {b : Books}

structure Ordered (b : Books) : Prop where
  nodup : ∀ k, (b.free k).Nodup
  exclusive : ∀ i k, i ∈ b.free k → b.out i = none
  coalesced : Coalesced b.freeTiles

structure Balanced (n : Nat) (b : Books) : Prop extends Ordered b where
  tiling : Tiling n b.tiles

structure Holding (n : Nat) (b : Books) (i k : Nat) : Prop extends Ordered b where
  tiling : Tiling n (insert (i, k) b.tiles)
  inHand : (i, k) ∉ b.tiles

theorem mem_add : a ∈ (b.add i k).free l ↔ (a = i ∧ l = k) ∨ a ∈ b.free l := by
  by_cases same : l = k
  · subst same
    simp [add]
  · simp [add,same]

theorem mem_remove (nodup : (b.free k).Nodup) :
    a ∈ (b.remove i k).free l ↔ ¬(a = i ∧ l = k) ∧ a ∈ b.free l := by
  by_cases same : l = k
  · subst same
    simp [remove,nodup.mem_erase_iff]
  · simp [remove,same]

theorem tiles_add (b : Books) (i k : Nat) : (b.add i k).tiles = insert (i, k) b.tiles := by
  ext ⟨a,l⟩
  simp only [tiles,Set.mem_ofPred_eq,Set.mem_insert_iff,Prod.mk.injEq,mem_add]
  exact or_left_comm

theorem tiles_remove (ordered : Ordered b) (member : i ∈ b.free k) :
    insert (i, k) (b.remove i k).tiles = b.tiles := by
  ext ⟨a,l⟩
  simp only [tiles,Set.mem_ofPred_eq,Set.mem_insert_iff,Prod.mk.injEq,mem_remove (ordered.nodup k)]
  by_cases here : a = i ∧ l = k
  · obtain ⟨rfl,rfl⟩ := here
    simp [member]
  · simp [here,remove]

theorem tiles_checkout (absent : b.out i = none) :
    (b.checkout i k).tiles = insert (i, k) b.tiles := by
  ext ⟨a,l⟩
  by_cases here : a = i
  · subst here
    simp [tiles,checkout,absent,eq_comm]
  · simp [tiles,checkout,here]

theorem tiles_release (ordered : Ordered b) (out : b.out i = some k) :
    insert (i, k) (b.release i).tiles = b.tiles := by
  have listed : ∀ l, i ∉ b.free l := fun l member => by
    simp [ordered.exclusive i l member] at out
  ext ⟨a,l⟩
  by_cases here : a = i
  · subst here
    simp [tiles,release,out,listed,eq_comm]
  · simp [tiles,release,here]

/-- Taking tiles off the free lists keeps them ordered. -/
theorem Ordered.remove (ordered : Ordered b) (i k : Nat) : Ordered (b.remove i k) := by
  have fewer : ∀ a l, a ∈ (b.remove i k).free l → a ∈ b.free l := fun a l member =>
    ((mem_remove (ordered.nodup k)).mp member).2
  refine ⟨fun l => ?_,fun a l member => ordered.exclusive a l (fewer a l member),
    fun a l member other => ordered.coalesced a l (fewer a l member) (fewer _ l other)⟩
  by_cases same : l = k
  · subst same
    simpa [Books.remove] using (ordered.nodup l).erase i
  · simpa [Books.remove,same] using ordered.nodup l

/-- So does a tile that is not checked out and whose buddy is not free. -/
theorem Ordered.add (ordered : Ordered b) (absent : b.out i = none) (new : i ∉ b.free k)
    (alone : buddy i k ∉ b.free k) : Ordered (b.add i k) := by
  refine ⟨fun l => ?_,fun a l member => ?_,fun a l member other => ?_⟩
  · by_cases same : l = k
    · subst same
      simpa [Books.add] using ⟨new,ordered.nodup l⟩
    · simpa [Books.add,same] using ordered.nodup l
  · rcases mem_add.mp member with ⟨rfl,rfl⟩ | member
    · exact absent
    · exact ordered.exclusive a l member
  · rcases mem_add.mp member with ⟨rfl,rfl⟩ | listed
    · rcases mem_add.mp other with ⟨self,-⟩ | listed
      · exact buddy_ne _ _ self
      · exact alone listed
    · rcases mem_add.mp other with ⟨here,rfl⟩ | also
      · have pair : buddy i l = a := here ▸ buddy_buddy a l
        exact alone (pair.symm ▸ listed)
      · exact ordered.coalesced a l listed also

/-- The tile in hand is in no list and not checked out. -/
theorem Holding.absent (holding : Holding n b i k) : b.out i = none ∧ ∀ l, i ∉ b.free l := by
  have only : ∀ l, (i, l) ∉ b.tiles := by
    intro l tile
    have := two_pow k
    have := two_pow l
    obtain ⟨-,same⟩ := holding.tiling.unique (Set.mem_insert (i, k) _)
      (Set.mem_insert_of_mem _ tile) (by omega) (by omega)
    exact holding.inHand (same ▸ tile)
  refine ⟨?_,fun l member => only l (Or.inr member)⟩
  cases out : b.out i with
  | none => rfl
  | some l => exact absurd (Or.inl out) (only l)

theorem Balanced.take (balanced : Balanced n b) (member : i ∈ b.free k) :
    Holding n (b.remove i k) i k where
  toOrdered := balanced.toOrdered.remove i k
  tiling := (tiles_remove balanced.toOrdered member).symm ▸ balanced.tiling
  inHand := by
    rintro (out | listed)
    · have : b.out i = some k := out
      rw [balanced.exclusive i k member] at this
      contradiction
    · exact ((mem_remove (balanced.nodup k)).mp listed).1 ⟨rfl,rfl⟩

theorem Balanced.release (balanced : Balanced n b) (out : b.out i = some k) :
    Holding n (b.release i) i k where
  nodup := balanced.nodup
  coalesced := balanced.coalesced
  exclusive a l member := by
    by_cases here : a = i
    · simp [Books.release,here]
    · simpa [Books.release,here] using balanced.exclusive a l member
  tiling := (tiles_release balanced.toOrdered out).symm ▸ balanced.tiling
  inHand := by
    rintro (still | listed)
    · simp [Books.release] at still
    · have := balanced.exclusive i k listed
      rw [out] at this
      contradiction

theorem Holding.checkout (holding : Holding n b i k) : Balanced n (b.checkout i k) where
  nodup := holding.nodup
  coalesced := holding.coalesced
  exclusive a l member := by
    have other : a ≠ i := fun same => holding.absent.2 l (same ▸ member)
    simpa [Books.checkout,other] using holding.exclusive a l member
  tiling := (tiles_checkout holding.absent.1).symm ▸ holding.tiling

/-- Half of the tile in hand goes onto the free list. -/
theorem Holding.split (holding : Holding n b i (k + 1)) :
    Holding n (b.add (i + 2 ^ k) k) i k := by
  have cut := holding.tiling.split holding.inHand
  have aligned := holding.tiling.aligned i (k + 1) (Set.mem_insert _ _)
  have positive := two_pow k
  have double := two_pow_succ k
  have inside : ∀ l, (i + 2 ^ k, l) ∉ b.tiles := by
    intro l tile
    have := two_pow l
    have := holding.tiling.unique (Set.mem_insert (i, k + 1) _) (Set.mem_insert_of_mem _ tile)
      (by omega) (by omega)
    omega
  have absent : b.out (i + 2 ^ k) = none := by
    cases out : b.out (i + 2 ^ k) with
    | none => rfl
    | some l => exact absurd (Or.inl out) (inside l)
  have alone : buddy (i + 2 ^ k) k ∉ b.free k := by
    rw [buddy_right aligned]
    exact holding.absent.2 k
  refine ⟨holding.toOrdered.add absent (fun member => inside k (Or.inr member)) alone,?_,?_⟩
  · rw [tiles_add]
    exact cut
  · rw [tiles_add]
    rintro (same | tile)
    · simp at same
    · rcases tile with out | listed
      · rw [holding.absent.1] at out
        contradiction
      · exact holding.absent.2 k listed

/-- The tile in hand and its free buddy become one tile in hand. -/
theorem Holding.merge (holding : Holding n b i k) (member : buddy i k ∈ b.free k) :
    Holding n (b.remove (buddy i k) k) (min i (buddy i k)) (k + 1) := by
  have both := tiles_remove holding.toOrdered member
  have tiling := holding.tiling
  rw [← both] at tiling
  have aligned := tiling.aligned i k (Set.mem_insert _ _)
  have left : (i, k) ∉ (b.remove (buddy i k) k).tiles := fun tile =>
    holding.inHand (both ▸ Set.mem_insert_of_mem _ tile)
  have right : (buddy i k, k) ∉ (b.remove (buddy i k) k).tiles := by
    rintro (out | listed)
    · have : b.out (buddy i k) = some k := out
      rw [holding.exclusive _ k member] at this
      contradiction
    · exact ((mem_remove (holding.nodup k)).mp listed).1 ⟨rfl,rfl⟩
  have positive := two_pow k
  obtain ⟨run,alignedRun,pair⟩ := buddy_pair aligned
  have fewer : Ordered (b.remove (buddy i k) k) := holding.toOrdered.remove _ k
  generalize buddy i k = j at tiling left right pair fewer ⊢
  generalize b.remove j k = rest at tiling left right fewer ⊢
  have joined : Tiling n (insert (run, k + 1) rest.tiles) ∧ min i j = run ∧
      (run, k) ∈ insert (i, k) (insert (j, k) rest.tiles) := by
    rcases pair with ⟨rfl,rfl⟩ | ⟨rfl,rfl⟩
    · exact ⟨tiling.merge alignedRun left right,by omega,Set.mem_insert _ _⟩
    · exact ⟨(Set.insert_comm _ _ _ ▸ tiling).merge alignedRun right left,by omega,
        Set.mem_insert_of_mem _ (Set.mem_insert _ _)⟩
  obtain ⟨joined,start,half⟩ := joined
  rw [start]
  refine ⟨fewer,joined,fun tile => ?_⟩
  have longer := two_pow (k + 1)
  have same := tiling.unique half (Set.mem_insert_of_mem _ (Set.mem_insert_of_mem _ tile))
    (by omega) (by omega)
  omega

theorem Holding.add (holding : Holding n b i k) (alone : buddy i k ∉ b.free k) :
    Balanced n (b.add i k) where
  toOrdered := holding.toOrdered.add holding.absent.1 (holding.absent.2 k) alone
  tiling := (tiles_add b i k).symm ▸ holding.tiling

/-- The start of the buddy is in the books under its own size, if it is in the row. -/
theorem Holding.buddy_tile (holding : Holding n b i k) (fits : buddy i k + 2 ^ k ≤ n) :
    ∃ l, l ≤ k ∧ (buddy i k, l) ∈ b.tiles := by
  obtain ⟨l,short,same | tile⟩ := holding.tiling.buddy_start (Set.mem_insert _ _) fits
  · exact absurd (Prod.mk.inj same).1 (buddy_ne i k)
  · exact ⟨l,short,tile⟩

/-- A free list of a log size from `k` on has a tile exactly when some aligned run of that size
meets nothing that is checked out. -/
theorem Balanced.room_iff (balanced : Balanced n b) (k : Nat) :
    (∃ l, k ≤ l ∧ b.free l ≠ []) ↔
      ∃ a, 2 ^ k ∣ a ∧ a + 2 ^ k ≤ n ∧
        ∀ i l, b.out i = some l → i + 2 ^ l ≤ a ∨ a + 2 ^ k ≤ i := by
  constructor
  · rintro ⟨l,longer,some⟩
    obtain ⟨a,member⟩ := List.exists_mem_of_ne_nil _ some
    have tile : (a, l) ∈ b.tiles := Or.inr member
    have within : 2 ^ k ≤ 2 ^ l := Nat.pow_le_pow_right (by decide) longer
    have inside := balanced.tiling.inside a l tile
    refine ⟨a,Nat.dvd_trans (Nat.pow_dvd_pow 2 longer) (balanced.tiling.aligned a l tile),
      by omega,fun i m out => ?_⟩
    have different : (i, m) ≠ (a, l) := by
      rintro same
      obtain ⟨rfl,rfl⟩ := Prod.mk.inj same
      simp [balanced.exclusive i m member] at out
    have := balanced.tiling.apart i m a l (Or.inl out) tile different
    omega
  · rintro ⟨a,aligned,inside,unused⟩
    obtain ⟨i,l,member,longer,-⟩ := balanced.tiling.room balanced.coalesced aligned inside
      fun i l tile left right => by
        rcases tile with out | listed
        · have := unused i l out
          omega
        · exact listed
    exact ⟨l,longer,List.ne_nil_of_mem member⟩

/-- With nothing checked out the free tiles are those of the binary digits. -/
theorem Balanced.all_free (balanced : Balanced n b) (none : ∀ i, b.out i = none) :
    b.freeTiles = digits n := by
  have same : b.tiles = b.freeTiles := by
    ext ⟨i,k⟩
    simp [tiles,freeTiles,none]
  rw [← same]
  exact balanced.tiling.free_digits (same ▸ balanced.coalesced)

/-- What the tiles checked out from the first `n` blocks on weigh together. -/
def weight (f : Nat → Nat) (out : Nat → Option Nat) : Nat → Nat
  | 0 => 0
  | n + 1 => weight f out n + (out n).elim 0 f

theorem weight_update_beyond (f : Nat → Nat) (out : Nat → Option Nat) (new : Option Nat)
    (beyond : n ≤ i) : weight f (Function.update out i new) n = weight f out n := by
  induction n with
  | zero => rfl
  | succ n ih => rw [weight,weight,ih (by omega),Function.update_of_ne (by omega)]

theorem weight_update (f : Nat → Nat) (out : Nat → Option Nat) (new : Option Nat)
    (inside : i < n) :
    weight f (Function.update out i new) n + (out i).elim 0 f =
      weight f out n + new.elim 0 f := by
  induction n with
  | zero => omega
  | succ n ih =>
    rw [weight,weight]
    by_cases last : i = n
    · subst last
      rw [weight_update_beyond f out new (Nat.le_refl i),Function.update_self]
      omega
    · have earlier := ih (by omega)
      rw [Function.update_of_ne (Ne.symm last)]
      omega

theorem weight_zero (f : Nat → Nat) {out : Nat → Option Nat} (none : ∀ i, out i = none) (n : Nat) :
    weight f out n = 0 := by
  induction n with
  | zero => rfl
  | succ n ih => rw [weight,ih,none,Option.elim_none]

theorem weight_sum (f : Nat → Nat) (out : Nat → Option Nat) (n : Nat) :
    weight f out n =
      (((List.range n).filter fun i => (out i).isSome).map fun i => (out i).elim 0 f).sum := by
  induction n with
  | zero => rfl
  | succ n ih =>
    rw [weight,ih,List.range_succ,List.filter_append,List.map_append,List.sum_append]
    cases last : out n <;> simp [last]

theorem weight_mono {f f' : Nat → Nat} (less : ∀ k, f k ≤ f' k) (out : Nat → Option Nat)
    (n : Nat) : weight f out n ≤ weight f' out n := by
  induction n with
  | zero => exact Nat.le_refl 0
  | succ n ih =>
    rw [weight,weight]
    refine Nat.add_le_add ih ?_
    cases out n with
    | none => exact Nat.le_refl 0
    | some k => exact less k

/-- Tiles that do not overlap and end by `c` are no longer than `c` together: the one that starts
last is behind all others. -/
theorem weight_within {out : Nat → Option Nat}
    (apart : ∀ i k j, out i = some k → (out j).isSome = true → i < j → i + 2 ^ k ≤ j)
    (within : ∀ i k, i < n → out i = some k → i + 2 ^ k ≤ c) : weight (2 ^ ·) out n ≤ c := by
  induction n generalizing c with
  | zero => exact Nat.zero_le c
  | succ n ih =>
    rw [weight]
    cases last : out n with
    | none => exact ih fun i k below => within i k (by omega)
    | some k =>
      have before := @ih n fun i l below found => apart i l n found (by simp [last]) below
      have ends := within n k (by omega) last
      simp only [Option.elim_some]
      omega

theorem Balanced.weight_le (balanced : Balanced n b) : weight (2 ^ ·) b.out n ≤ n := by
  apply weight_within
  · intro i k j first second before
    obtain ⟨l,second⟩ := Option.isSome_iff_exists.mp second
    have := balanced.tiling.apart i k j l (Or.inl first) (Or.inl second)
      (fun same => by have := (Prod.mk.inj same).1; omega)
    have := two_pow l
    omega
  · exact fun i k _ out => balanced.tiling.inside i k (Or.inl out)

end Books

end LuaKernel.Buddies
