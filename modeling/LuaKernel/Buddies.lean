import Mathlib.Algebra.Group.Nat.Defs
import Mathlib.Data.Nat.Find
import Mathlib.Data.Set.Insert

/-! Binary buddies. A row of `n` blocks is tiled by tiles `(i, k)`, from block `i` on and of length
`2 ^ k`, each at a multiple of its length. Two tiles that are the halves of a larger aligned run are
buddies. Where no two free tiles are buddies, a free run is inside one free tile, and a row with
nothing but free tiles is cut as the binary digits of `n` say. -/
namespace LuaKernel.Buddies

theorem two_pow (k : Nat) : 0 < 2 ^ k := Nat.pow_pos (by decide)

/-- An aligned run that meets a longer one is inside it. -/
theorem aligned_inside (first : 2 ^ k ∣ i) (second : 2 ^ l ∣ j) (longer : k ≤ l)
    (meets : i < j + 2 ^ l) (meets' : j < i + 2 ^ k) : j ≤ i ∧ i + 2 ^ k ≤ j + 2 ^ l := by
  obtain ⟨c,scale⟩ := Nat.pow_dvd_pow 2 longer
  obtain ⟨a,rfl⟩ := first
  obtain ⟨b,rfl⟩ := Nat.dvd_trans (Nat.pow_dvd_pow 2 longer) second
  rw [scale] at meets ⊢
  have below : a < b + c :=
    Nat.lt_of_mul_lt_mul_left (a := 2 ^ k) (by rw [Nat.mul_add]; exact meets)
  have above : b < a + 1 :=
    Nat.lt_of_mul_lt_mul_left (a := 2 ^ k) (by rw [Nat.mul_add,Nat.mul_one]; exact meets')
  have lower := Nat.mul_le_mul_left (2 ^ k) (Nat.le_of_lt_succ above)
  have upper := Nat.mul_le_mul_left (2 ^ k) below
  rw [Nat.mul_succ,Nat.mul_add] at upper
  exact ⟨lower,upper⟩

def buddy (i k : Nat) : Nat := if i / 2 ^ k % 2 = 1 then i - 2 ^ k else i + 2 ^ k

theorem buddy_left (aligned : 2 ^ (k + 1) ∣ i) : buddy i k = i + 2 ^ k := by
  obtain ⟨a,rfl⟩ := aligned
  have index : 2 ^ (k + 1) * a / 2 ^ k = 2 * a := by
    rw [Nat.pow_succ,Nat.mul_assoc]
    exact Nat.mul_div_cancel_left _ (two_pow k)
  rw [buddy,index,if_neg (by omega)]

theorem buddy_right (aligned : 2 ^ (k + 1) ∣ i) : buddy (i + 2 ^ k) k = i := by
  obtain ⟨a,rfl⟩ := aligned
  have index : (2 ^ (k + 1) * a + 2 ^ k) / 2 ^ k = 2 * a + 1 := by
    rw [Nat.pow_succ,Nat.mul_assoc,← Nat.mul_succ]
    exact Nat.mul_div_cancel_left _ (two_pow k)
  rw [buddy,index,if_pos (by omega),Nat.add_sub_cancel]

/-- A tile and its buddy are the halves of one aligned run. -/
theorem buddy_pair (aligned : 2 ^ k ∣ i) : ∃ run, 2 ^ (k + 1) ∣ run ∧
    ((i = run ∧ buddy i k = run + 2 ^ k) ∨ (i = run + 2 ^ k ∧ buddy i k = run)) := by
  obtain ⟨a,rfl⟩ := aligned
  rcases Nat.mod_two_eq_zero_or_one a with even | odd
  · obtain ⟨b,rfl⟩ := Nat.dvd_of_mod_eq_zero even
    have run : 2 ^ (k + 1) ∣ 2 ^ k * (2 * b) := ⟨b,by rw [Nat.pow_succ,Nat.mul_assoc]⟩
    exact ⟨_,run,Or.inl ⟨rfl,buddy_left run⟩⟩
  · have split : 2 ^ k * a = 2 ^ (k + 1) * (a / 2) + 2 ^ k := by
      rw [Nat.pow_succ,Nat.mul_assoc,← Nat.mul_succ]
      congr 1
      omega
    exact ⟨_,⟨a / 2,rfl⟩,Or.inr ⟨split,split ▸ buddy_right ⟨a / 2,rfl⟩⟩⟩

theorem odd_large (odd : i / 2 ^ k % 2 = 1) : 2 ^ k ≤ i := by
  by_contra small
  rw [Nat.div_eq_of_lt (by omega)] at odd
  contradiction

theorem buddy_buddy (i k : Nat) : buddy (buddy i k) k = i := by
  have positive := two_pow k
  by_cases odd : i / 2 ^ k % 2 = 1
  · obtain ⟨j,rfl⟩ : ∃ j, i = j + 2 ^ k :=
      Nat.exists_eq_add_of_le' (odd_large odd)
    rw [Nat.add_div_right j positive] at odd
    simp only [buddy,Nat.add_div_right j positive,if_pos odd,Nat.add_sub_cancel]
    rw [if_neg (by omega)]
  · simp only [buddy,if_neg odd,Nat.add_div_right i positive]
    rw [if_pos (by omega),Nat.add_sub_cancel]

theorem buddy_ne (i k : Nat) : buddy i k ≠ i := by
  have positive := two_pow k
  intro same
  by_cases odd : i / 2 ^ k % 2 = 1
  · have large := odd_large odd
    rw [buddy,if_pos odd] at same
    omega
  · rw [buddy,if_neg odd] at same
    omega

theorem two_pow_succ (k : Nat) : 2 ^ (k + 1) = 2 ^ k + 2 ^ k := by rw [Nat.pow_succ]; omega

theorem halves_aligned (run : 2 ^ (k + 1) ∣ i) : 2 ^ k ∣ i ∧ 2 ^ k ∣ i + 2 ^ k := by
  have aligned := Nat.dvd_trans (Nat.pow_dvd_pow 2 (Nat.le_succ k)) run
  exact ⟨aligned,Nat.dvd_add aligned (Nat.dvd_refl _)⟩

theorem buddy_aligned (aligned : 2 ^ k ∣ i) : 2 ^ k ∣ buddy i k := by
  obtain ⟨run,alignedRun,⟨-,at_⟩ | ⟨-,at_⟩⟩ := buddy_pair aligned
  · exact at_ ▸ (halves_aligned alignedRun).2
  · exact at_ ▸ (halves_aligned alignedRun).1

structure Tiling (n : Nat) (tiles : Set (Nat × Nat)) : Prop where
  inside : ∀ i k, (i, k) ∈ tiles → i + 2 ^ k ≤ n
  aligned : ∀ i k, (i, k) ∈ tiles → 2 ^ k ∣ i
  cover : ∀ b, b < n → ∃ i k, (i, k) ∈ tiles ∧ i ≤ b ∧ b < i + 2 ^ k
  apart : ∀ i k j l, (i, k) ∈ tiles → (j, l) ∈ tiles → (i, k) ≠ (j, l) →
    i + 2 ^ k ≤ j ∨ j + 2 ^ l ≤ i

theorem Tiling.unique (tiling : Tiling n tiles) (first : (i, k) ∈ tiles) (second : (j, l) ∈ tiles)
    (left : i < j + 2 ^ l) (right : j < i + 2 ^ k) : i = j ∧ k = l := by
  by_contra different
  have := tiling.apart i k j l first second (by simpa using different)
  omega

/-- At a tile's buddy a tile starts, and none longer than its half of the pair. -/
theorem Tiling.buddy_start (tiling : Tiling n tiles) (tile : (i, k) ∈ tiles)
    (fits : buddy i k + 2 ^ k ≤ n) : ∃ l, l ≤ k ∧ (buddy i k, l) ∈ tiles := by
  have positive := two_pow k
  have double := two_pow_succ k
  obtain ⟨a,l,other,from_,until_⟩ := tiling.cover (buddy i k) (by omega)
  have aligned := tiling.aligned i k tile
  have alignedOther := tiling.aligned a l other
  obtain ⟨run,alignedRun,pair⟩ := buddy_pair aligned
  have short : l ≤ k := by
    by_contra longer
    have whole := aligned_inside alignedRun alignedOther (by omega) (by omega) (by omega)
    have same := tiling.unique tile other (by omega) (by omega)
    omega
  have within := aligned_inside alignedOther (buddy_aligned aligned) short (by omega) (by omega)
  have start : a = buddy i k := by omega
  exact ⟨l,short,start ▸ other⟩

theorem Tiling.split (tiling : Tiling n (insert (i, k + 1) tiles)) (new : (i, k + 1) ∉ tiles) :
    Tiling n (insert (i, k) (insert (i + 2 ^ k, k) tiles)) := by
  have double := two_pow_succ k
  have whole := tiling.inside i (k + 1) (Set.mem_insert _ _)
  have halves := halves_aligned (tiling.aligned i (k + 1) (Set.mem_insert _ _))
  have clear : ∀ j l, (j, l) ∈ tiles → i + 2 ^ (k + 1) ≤ j ∨ j + 2 ^ l ≤ i := fun j l tile =>
    tiling.apart i (k + 1) j l (Set.mem_insert _ _) (Set.mem_insert_of_mem _ tile)
      fun same => new (same ▸ tile)
  constructor
  · rintro j l (same | same | tile)
    · cases same; omega
    · cases same; omega
    · exact tiling.inside j l (Set.mem_insert_of_mem _ tile)
  · rintro j l (same | same | tile)
    · cases same; exact halves.1
    · cases same; exact halves.2
    · exact tiling.aligned j l (Set.mem_insert_of_mem _ tile)
  · intro b bound
    obtain ⟨j,l,same | tile,from_,until_⟩ := tiling.cover b bound
    · cases same
      by_cases left : b < i + 2 ^ k
      · exact ⟨i,k,Set.mem_insert _ _,from_,left⟩
      · exact ⟨i + 2 ^ k,k,Set.mem_insert_of_mem _ (Set.mem_insert _ _),by omega,by omega⟩
    · exact ⟨j,l,Set.mem_insert_of_mem _ (Set.mem_insert_of_mem _ tile),from_,until_⟩
  · rintro a p b q (first | first | first) (second | second | second) different
    · cases first; cases second; exact absurd rfl different
    · cases first; cases second; omega
    · cases first; have := clear b q second; omega
    · cases first; cases second; omega
    · cases first; cases second; exact absurd rfl different
    · cases first; have := clear b q second; omega
    · cases second; have := clear a p first; omega
    · cases second; have := clear a p first; omega
    · exact tiling.apart a p b q (Set.mem_insert_of_mem _ first) (Set.mem_insert_of_mem _ second)
        different

theorem Tiling.merge (tiling : Tiling n (insert (i, k) (insert (i + 2 ^ k, k) tiles)))
    (aligned : 2 ^ (k + 1) ∣ i) (left : (i, k) ∉ tiles) (right : (i + 2 ^ k, k) ∉ tiles) :
    Tiling n (insert (i, k + 1) tiles) := by
  have double := two_pow_succ k
  have older : ∀ t ∈ tiles, t ∈ insert (i, k) (insert (i + 2 ^ k, k) tiles) := fun t tile =>
    Set.mem_insert_of_mem _ (Set.mem_insert_of_mem _ tile)
  have second := Set.mem_insert_of_mem (i, k) (Set.mem_insert (i + 2 ^ k, k) tiles)
  have clear : ∀ j l, (j, l) ∈ tiles → i + 2 ^ (k + 1) ≤ j ∨ j + 2 ^ l ≤ i := by
    intro j l tile
    have before := tiling.apart i k j l (Set.mem_insert _ _) (older _ tile)
      fun same => left (same ▸ tile)
    have behind := tiling.apart (i + 2 ^ k) k j l second (older _ tile)
      fun same => right (same ▸ tile)
    have := two_pow l
    omega
  constructor
  · rintro j l (same | tile)
    · cases same
      have := tiling.inside (i + 2 ^ k) k second
      omega
    · exact tiling.inside j l (older _ tile)
  · rintro j l (same | tile)
    · cases same; exact aligned
    · exact tiling.aligned j l (older _ tile)
  · intro b bound
    obtain ⟨j,l,same | same | tile,from_,until_⟩ := tiling.cover b bound
    · cases same; exact ⟨i,k + 1,Set.mem_insert _ _,by omega,by omega⟩
    · cases same; exact ⟨i,k + 1,Set.mem_insert _ _,by omega,by omega⟩
    · exact ⟨j,l,Set.mem_insert_of_mem _ tile,from_,until_⟩
  · rintro a p b q (first | first) (second | second) different
    · cases first; cases second; exact absurd rfl different
    · cases first; exact clear b q second
    · cases second; exact (clear a p first).symm
    · exact tiling.apart a p b q (older _ first) (older _ second) different

def Coalesced (free : Set (Nat × Nat)) : Prop :=
  ∀ i k, (i, k) ∈ free → (buddy i k, k) ∉ free

/-- An aligned run that meets only free tiles is inside one of them. -/
theorem Tiling.room (tiling : Tiling n tiles) (coalesced : Coalesced free)
    (aligned : 2 ^ k ∣ a) (inside : a + 2 ^ k ≤ n)
    (unused : ∀ i l, (i, l) ∈ tiles → i < a + 2 ^ k → a < i + 2 ^ l → (i, l) ∈ free) :
    ∃ i l, (i, l) ∈ free ∧ k ≤ l ∧ i ≤ a ∧ a + 2 ^ k ≤ i + 2 ^ l := by
  have positive := two_pow k
  obtain ⟨i,l,tile,from_,until_⟩ := tiling.cover a (by omega)
  by_cases long : k ≤ l
  · have within := aligned_inside aligned (tiling.aligned i l tile) long (by omega) (by omega)
    exact ⟨i,l,unused i l tile (by omega) until_,long,within⟩
  · exfalso
    let Short (l : Nat) : Prop := ∃ i, (i, l) ∈ tiles ∧ i < a + 2 ^ k ∧ a < i + 2 ^ l
    have some : ∃ l, Short l := ⟨l,i,tile,by omega,until_⟩
    classical
    obtain ⟨j,short,left,right⟩ := Nat.find_spec some
    have least : ∀ m, Short m → Nat.find some ≤ m := fun m => Nat.find_min' some
    generalize Nat.find some = m at short left right least
    have smaller : m < k := Nat.lt_of_le_of_lt (least l ⟨i,tile,by omega,until_⟩) (by omega)
    have alignedTile := tiling.aligned j m short
    obtain ⟨run,alignedRun,pair⟩ := buddy_pair alignedTile
    have double := two_pow_succ m
    have half := two_pow m
    have within := aligned_inside alignedRun aligned (by omega) (by omega) (by omega)
    obtain ⟨r,shorter,other⟩ := tiling.buddy_start short (by omega)
    have other' := two_pow r
    have equal : r = m := by
      have := least r ⟨_,other,by omega,by omega⟩
      omega
    subst equal
    exact coalesced j r (unused j r short left right)
      (unused _ r other (by omega) (by omega))

/-- One tile for each binary digit of `n`, the longest first. -/
def digits (n : Nat) : Set (Nat × Nat) :=
  {t | n / 2 ^ t.2 % 2 = 1 ∧ t.1 = n / 2 ^ (t.2 + 1) * 2 ^ (t.2 + 1)}

/-- A digit's tile ends where the shorter ones start. -/
theorem digit_end (tile : (i, k) ∈ digits n) : i + 2 ^ k = n / 2 ^ k * 2 ^ k := by
  obtain ⟨digit,start⟩ := tile
  have cut : n / 2 ^ (k + 1) = n / 2 ^ k / 2 := by rw [Nat.pow_succ,Nat.div_div_eq_div_mul]
  have odd : n / 2 ^ k = n / 2 ^ k / 2 * 2 + 1 := by
    have same : n / 2 ^ k % 2 = 1 := digit
    omega
  have here : i = n / 2 ^ k / 2 * 2 * 2 ^ k := by
    have at_ : i = n / 2 ^ (k + 1) * 2 ^ (k + 1) := start
    rw [at_,cut,Nat.pow_succ,Nat.mul_assoc,Nat.mul_comm (2 ^ k)]
  calc i + 2 ^ k = (n / 2 ^ k / 2 * 2 + 1) * 2 ^ k := by rw [here,Nat.add_mul,Nat.one_mul]
    _ = n / 2 ^ k * 2 ^ k := by rw [← odd]

/-- The tile of a longer digit ends before that of a shorter one starts. -/
theorem digit_before (first : (i, k) ∈ digits n) (second : (j, l) ∈ digits n) (longer : l < k) :
    i + 2 ^ k ≤ j := by
  have at_ : j = n / 2 ^ (l + 1) * 2 ^ (l + 1) := second.2
  obtain ⟨c,scale⟩ := Nat.pow_dvd_pow 2 longer
  rw [digit_end first,at_,scale,← Nat.mul_assoc,Nat.mul_right_comm]
  apply Nat.mul_le_mul_right
  rw [Nat.le_div_iff_mul_le (two_pow _),Nat.mul_assoc,Nat.mul_comm c,← scale]
  exact Nat.div_mul_le_self n (2 ^ k)

theorem digits_tiling (n : Nat) : Tiling n (digits n) := by
  constructor
  · intro i k tile
    rw [digit_end tile]
    exact Nat.div_mul_le_self n (2 ^ k)
  · intro i k tile
    have at_ : i = n / 2 ^ (k + 1) * 2 ^ (k + 1) := tile.2
    exact (halves_aligned (at_ ▸ Nat.dvd_mul_left _ _)).1
  · intro b bound
    have agree : ∃ k, n / 2 ^ (k + 1) = b / 2 ^ (k + 1) := by
      have below : n < 2 ^ (n + 1) := Nat.lt_trans Nat.lt_two_pow_self
        (Nat.pow_lt_pow_right (by decide) (Nat.lt_succ_self n))
      exact ⟨n,by rw [Nat.div_eq_of_lt below,Nat.div_eq_of_lt (by omega)]⟩
    classical
    have same := Nat.find_spec agree
    have first : ∀ m, m < Nat.find agree → ¬n / 2 ^ (m + 1) = b / 2 ^ (m + 1) :=
      fun m => Nat.find_min agree
    generalize Nat.find agree = k at same first
    have differ : n / 2 ^ k ≠ b / 2 ^ k := by
      cases k with
      | zero => simp; omega
      | succ m => exact first m (by omega)
    have ordered : b / 2 ^ k ≤ n / 2 ^ k := Nat.div_le_div_right (Nat.le_of_lt bound)
    have cut : ∀ a, a / 2 ^ (k + 1) = a / 2 ^ k / 2 := fun a => by
      rw [Nat.pow_succ,Nat.div_div_eq_div_mul]
    rw [cut,cut] at same
    have tile : (n / 2 ^ (k + 1) * 2 ^ (k + 1), k) ∈ digits n :=
      ⟨(by omega : n / 2 ^ k % 2 = 1),rfl⟩
    refine ⟨_,k,tile,?_,?_⟩
    · have lower := Nat.div_mul_le_self b (2 ^ (k + 1))
      rwa [cut,← same,← cut] at lower
    · rw [digit_end tile]
      exact (Nat.div_lt_iff_lt_mul (two_pow k)).mp (by omega)
  · intro i k j l first second different
    rcases Nat.lt_trichotomy k l with shorter | rfl | longer
    · exact Or.inr (digit_before second first shorter)
    · have same : i = j := first.2.trans second.2.symm
      exact absurd (by rw [same]) different
    · exact Or.inl (digit_before first second longer)

/-- Where everything is free the tiles are the digits. -/
theorem Tiling.free_digits (tiling : Tiling n tiles) (coalesced : Coalesced tiles) :
    tiles = digits n := by
  have only : ∀ i k, (i, k) ∈ tiles → (i, k) ∈ digits n := by
    intro i k tile
    have aligned := tiling.aligned i k tile
    have inside := tiling.inside i k tile
    have double := two_pow_succ k
    have positive := two_pow k
    obtain ⟨run,alignedRun,pair⟩ := buddy_pair aligned
    have short : n < run + 2 ^ (k + 1) := by
      by_contra fits
      obtain ⟨j,l,other,longer,from_,until_⟩ := tiling.room coalesced alignedRun (by omega)
        fun _ _ found _ _ => found
      have same := tiling.unique tile other (by omega) (by omega)
      omega
    obtain ⟨c,rfl⟩ := alignedRun
    obtain ⟨rfl,-⟩ | ⟨here,-⟩ := pair
    · have index : n / 2 ^ (k + 1) = c := by
        rw [Nat.div_eq_iff (two_pow _)]
        constructor
        · rw [Nat.mul_comm]; omega
        · rw [Nat.mul_comm]; omega
      have digit : n / 2 ^ k = 2 * c + 1 := by
        rw [Nat.div_eq_iff positive]
        rw [Nat.pow_succ,Nat.mul_assoc] at inside short
        rw [Nat.add_mul,Nat.one_mul,Nat.mul_comm (2 * c)]
        constructor <;> omega
      exact ⟨(by omega : n / 2 ^ k % 2 = 1),by rw [index,Nat.mul_comm]⟩
    · omega
  refine Set.Subset.antisymm (fun t tile => only t.1 t.2 tile) fun t digit => ?_
  obtain ⟨j,l,tile,from_,until_⟩ := tiling.cover t.1 (by
    have := (digits_tiling n).inside t.1 t.2 digit
    have := two_pow t.2
    omega)
  have same := (digits_tiling n).unique (i := t.1) (k := t.2) digit (only j l tile) until_
    (by have := two_pow t.2; omega)
  rwa [← same.1,← same.2] at tile

theorem digits_coalesced (n : Nat) : Coalesced (digits n) := by
  intro i k tile other
  exact buddy_ne i k (other.2.trans tile.2.symm)

end LuaKernel.Buddies
