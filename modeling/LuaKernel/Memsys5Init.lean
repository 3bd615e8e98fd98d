import LuaKernel.Memsys5Calls

/-! `memsys5Init` cuts the pool into the chunks of the binary digits of its number of blocks. The
pool and the control bytes may hold anything before. -/
namespace LuaKernel.Memsys5

open Bytes Grid Buddies LinkedLists Loops

theorem atomLoop_enough (szAtom : Nat) (positive : 0 < szAtom) :
    sizeofMem5Link ≤ atomLoop 3 szAtom := by
  simp only [sizeofMem5Link,atomLoop]
  by_cases once : szAtom < 8 <;> by_cases twice : szAtom * 2 < 8 <;>
    by_cases thrice : szAtom * 2 * 2 < 8 <;> simp only [once,twice,thrice,↓reduceIte] <;> omega

/-- The blocks and their control bytes fit the heap. -/
theorem layout_within (c : HeapConfig.Config) (lower : 0 ≤ c.nHeap) (upper : c.nHeap < 2 ^ 31) :
    (((layout c).nBlock * ((layout c).szAtom + 1) : Nat) : Int) ≤ c.nHeap := by
  obtain ⟨bytes,length⟩ := Int.eq_ofNat_of_zero_le lower
  simp only [layout,length]
  generalize atomLoop 3 (2 ^ memsys5Log c.mnReq) = szAtom
  have whole : (((bytes : Nat) : Int) % 2 ^ 64).toNat = bytes := by omega
  have below : bytes / (szAtom + 1) ≤ bytes := Nat.div_le_self _ _
  have product := Nat.div_mul_le_self bytes (szAtom + 1)
  rw [whole]
  generalize bytes / (szAtom + 1) = count at below product ⊢
  have same : (int32 count).toNat = count := by
    unfold int32
    split <;> omega
  rw [same]
  omega

theorem layout_sound (c : HeapConfig.Config) (notNull : 0 < c.pHeap) (lower : 0 ≤ c.nHeap)
    (upper : c.nHeap < 2 ^ 31) : (layout c).Sound where
  atom := atomLoop_enough _ (two_pow _)
  notNull := notNull
  size := by
    have within := layout_within c lower upper
    omega

/-- With the request size of 64 that `main` passes. -/
theorem layout_main (heapStart heapEnd : Nat) :
    (layout (HeapConfig.mainHeap heapStart heapEnd)).szAtom = Sqlite.szAtom := by
  have request : (HeapConfig.mainHeap heapStart heapEnd).mnReq = 64 := by
    simp only [HeapConfig.mainHeap,HeapConfig.sqlite3ConfigHeap]
    decide
  simp only [layout,request]
  decide

theorem heads_cleared (list : List Int) (length : list.length = LOGMAX + 1) :
    (loop (LOGMAX + 1) (fun ii list => list.set ii (-1)) list).length = LOGMAX + 1 ∧
      ∀ k, (loop (LOGMAX + 1) (fun ii list => list.set ii (-1)) list).getD k (-1) = -1 := by
  have cleared := loop_invariant
    (fun n (current : List Int) => current.length = LOGMAX + 1 ∧
      ∀ k, k < n → current.getD k (-1) = -1)
    (LOGMAX + 1) (fun ii list => list.set ii (-1)) list ⟨length,fun k below => by omega⟩
    (fun n current bound holds => by
      refine ⟨by simp [holds.1],fun k below => ?_⟩
      have set := congrFun (head_set current (holds.1 ▸ bound) (-1)) k
      by_cases here : k = n
      · subst here
        rw [set,Function.update_self]
      · rw [set,Function.update_of_ne here]
        exact holds.2 k (by omega))
  refine ⟨cleared.1,fun k => ?_⟩
  by_cases inside : k < LOGMAX + 1
  · exact cleared.2 k inside
  · rw [List.getD,List.getElem?_eq_none (by rw [cleared.1]; omega),Option.getD_none]

theorem even_digit (n k : Nat) (clear : ¬n / 2 ^ k % 2 = 1) :
    n / 2 ^ (k + 1) * 2 ^ (k + 1) = n / 2 ^ k * 2 ^ k := by
  have even : n / 2 ^ k / 2 * 2 = n / 2 ^ k := by omega
  rw [Nat.pow_succ,← Nat.div_div_eq_div_mul,Nat.mul_comm (2 ^ k),← Nat.mul_assoc,even]

/-- The next chunk fits exactly when the next binary digit is set. -/
theorem digit_fits (n k : Nat) :
    n / 2 ^ (k + 1) * 2 ^ (k + 1) + 2 ^ k ≤ n ↔ n / 2 ^ k % 2 = 1 := by
  constructor
  · intro fits
    by_contra clear
    have beyond := Nat.lt_div_mul_add (a := n) (two_pow k)
    rw [even_digit n k clear] at fits
    omega
  · intro digit
    have tile : (n / 2 ^ (k + 1) * 2 ^ (k + 1), k) ∈ digits n := ⟨digit,rfl⟩
    exact (digits_tiling n).inside _ k tile

/-- The pool when the chunks of the digits from `n` on are cut. -/
structure Cut (g : Layout) (before : Chunks) (n iOffset : Nat) (m : Chunks) (b : Books) : Prop where
  offset : iOffset = g.nBlock / 2 ^ n * 2 ^ n
  rep : Represents g m b
  none : ∀ i, b.out i = none
  free : ∀ i k, i ∈ b.free k ↔ n ≤ k ∧ (i, k) ∈ digits g.nBlock
  keeps : Keeps g b.out before.memory m.memory

theorem Cut.sits (cut : Cut g before n iOffset m b) : Sits g.nBlock b where
  inside i k tile := by
    rcases tile with out | listed
    · have : b.out i = some k := out
      simp [cut.none] at this
    · exact (digits_tiling g.nBlock).inside i k ((cut.free i k).mp listed).2
  clear i k q l _ out := by simp [cut.none] at out

theorem Cut.skip (cut : Cut g before (k + 1) iOffset m b) (clear : ¬g.nBlock / 2 ^ k % 2 = 1) :
    Cut g before k iOffset m b where
  offset := by rw [cut.offset,even_digit _ _ clear]
  rep := cut.rep
  none := cut.none
  free i l := by
    rw [cut.free]
    refine and_congr_left fun found => ⟨fun longer => by omega,fun longer => ?_⟩
    have other : l ≠ k := fun same => clear (same ▸ found.1)
    omega
  keeps := cut.keeps

theorem Cut.chunk (sound : g.Sound) (cut : Cut g before (k + 1) iOffset m b) (small : k ≤ LOGMAX)
    (digit : g.nBlock / 2 ^ k % 2 = 1) :
    Cut g before k (iOffset + 2 ^ k)
      (memsys5Link g iOffset k (setCtrl g iOffset (k ||| CTRL_FREE) m)) (b.add iOffset k) := by
  have tile : (iOffset, k) ∈ digits g.nBlock := ⟨digit,cut.offset⟩
  have inside := (digits_tiling g.nBlock).inside iOffset k tile
  have positive := two_pow k
  have new : ∀ l, (iOffset, l) ∉ b.tiles := by
    rintro l (out | listed)
    · simp [cut.none] at out
    · obtain ⟨longer,other⟩ := (cut.free iOffset l).mp listed
      have := two_pow l
      have same := (digits_tiling g.nBlock).unique tile other (by omega) (by omega)
      omega
  have byteSmall : k ||| CTRL_FREE < 256 :=
    Nat.or_lt_two_pow (n := 8) (by simp only [LOGMAX] at small; omega) (by decide)
  have marked := setCtrl_represents sound cut.rep cut.sits new byteSmall
  have byte : ctrl g iOffset (setCtrl g iOffset (k ||| CTRL_FREE) m).memory = CTRL_FREE ||| k := by
    rw [ctrl_setCtrl byteSmall,if_pos rfl,Nat.or_comm]
  have absent : ∀ l, iOffset ∉ b.free l := fun l listed => new l (Or.inr listed)
  refine ⟨digit_end tile,link_represents sound marked cut.sits inside absent byte,cut.none,?_,?_⟩
  · intro i l
    rw [Books.mem_add,cut.free]
    constructor
    · rintro (⟨rfl,rfl⟩ | ⟨longer,found⟩)
      · exact ⟨Nat.le_refl _,tile⟩
      · exact ⟨by omega,found⟩
    · rintro ⟨longer,found⟩
      by_cases same : l = k
      · subst same
        exact Or.inl ⟨found.2.trans tile.2.symm,rfl⟩
      · exact Or.inr ⟨by omega,found⟩
  · have out : ∀ q l, b.out q = some l → q + 2 ^ l ≤ g.nBlock := fun q l out => by
      simp [cut.none] at out
    refine (cut.keeps.trans (setCtrl_keeps out (by omega) _ m)).trans
      ((link_relinked marked iOffset k).keeps sound (fun j touched => ?_) fun j _ q l out => ?_)
    · rcases touched with rfl | listed
      · omega
      · exact free_below cut.sits listed
    · simp [cut.none] at out

theorem cutLoop_cuts {g : Layout} (sound : g.Sound) (cut : Cut g before n iOffset m b)
    (small : n ≤ LOGMAX + 1) :
    ∃ iOffset' b', Cut g before 0 iOffset' (cutLoop g n iOffset m) b' := by
  induction n generalizing iOffset m b with
  | zero => exact ⟨iOffset,b,cut⟩
  | succ k ih =>
    have fits := digit_fits g.nBlock k
    rw [← cut.offset] at fits
    by_cases digit : g.nBlock / 2 ^ k % 2 = 1
    · rw [cutLoop,if_pos (fits.mpr digit)]
      exact ih (cut.chunk sound (by omega) digit) (by omega)
    · rw [cutLoop,if_neg fun inside => digit (fits.mp inside)]
      exact ih (cut.skip digit) (by omega)

theorem Cut.kept (cut : Cut g before 0 iOffset m b) :
    Kept g m b ∧ b.freeTiles = digits g.nBlock := by
  have all : b.freeTiles = digits g.nBlock := by
    ext ⟨i,k⟩
    exact (cut.free i k).trans (and_iff_right (Nat.zero_le k))
  have tiles : b.tiles = b.freeTiles := by
    ext ⟨i,k⟩
    simp [Books.tiles,Books.freeTiles,cut.none]
  refine ⟨⟨cut.rep,⟨⟨cut.rep.lists.nodup,fun i _ _ => cut.none i,?_⟩,?_⟩⟩,all⟩
  · rw [all]
    exact digits_coalesced _
  · rw [tiles,all]
    exact digits_tiling _

theorem cut_start {g : Layout} (sound : g.Sound) (m : Chunks) (length : list.length = LOGMAX + 1)
    (empty : ∀ k, list.getD k (-1) = -1) :
    Cut g m (LOGMAX + 1) 0 { m with aiFreelist := list } ⟨fun _ => none, fun _ => []⟩ := by
  have below := nBlock_small sound
  have large : g.nBlock / 2 ^ (LOGMAX + 1) = 0 := Nat.div_eq_of_lt (by simp only [LOGMAX]; omega)
  have lists : Lists (view g { m with aiFreelist := list }) fun _ => [] :=
    ⟨empty,fun _ => List.nodup_nil,fun _ _ _ member => absurd member List.not_mem_nil⟩
  refine ⟨by rw [large,Nat.zero_mul],⟨length,lists,fun _ _ member => absurd member
    List.not_mem_nil,fun _ _ out => by simp at out⟩,fun _ => rfl,fun i k => ?_,Keeps.refl _ _ _⟩
  simp only [List.not_mem_nil,false_iff,not_and]
  intro longer tile
  have inside := (digits_tiling g.nBlock).inside i k tile
  have : 2 ^ 28 ≤ 2 ^ k := Nat.pow_le_pow_right (by decide) (by
    simp only [LOGMAX] at longer
    omega)
  omega

/-- What the pool is after `memsys5Init`, whatever it held. -/
theorem memsys5Init_cuts (c : HeapConfig.Config) (notNull : 0 < c.pHeap) (lower : 0 ≤ c.nHeap)
    (upper : c.nHeap < 2 ^ 31) (m : Mem5) (length : m.chunks.aiFreelist.length = LOGMAX + 1) :
    ∃ b, Kept (layout c) (memsys5Init c m).chunks b ∧ (∀ i, b.out i = none) ∧
      b.freeTiles = digits (layout c).nBlock ∧
      Keeps (layout c) b.out m.chunks.memory (memsys5Init c m).chunks.memory := by
  have sound := layout_sound c notNull lower upper
  obtain ⟨lengthLater,empty⟩ := heads_cleared m.chunks.aiFreelist length
  obtain ⟨iOffset,b,cut⟩ := cutLoop_cuts sound (cut_start sound m.chunks lengthLater empty)
    (Nat.le_refl _)
  obtain ⟨kept,all⟩ := cut.kept
  exact ⟨b,kept,cut.none,all,cut.keeps⟩

end LuaKernel.Memsys5
