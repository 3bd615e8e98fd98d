import LuaKernel.Memsys5Books

/-! The two loops of memsys5 as moves of the books. Splitting puts the upper halves of the chunk in
hand onto the free lists; merging takes the free buddy off its list and into the hand. Neither
touches a chunk that is checked out. -/
namespace LuaKernel.Memsys5

open Bytes Grid Buddies LinkedLists

/-- From one state of the books to another with the same chunks checked out. -/
structure Moved (g : Layout) (b : Books) (m : Chunks) (b' : Books) (m' : Chunks) : Prop where
  rep : Represents g m' b'
  out : b'.out = b.out
  keeps : Keeps g b.out m.memory m'.memory

theorem Moved.trans (first : Moved g b m b' m') (second : Moved g b' m' b'' m'') :
    Moved g b m b'' m'' where
  rep := second.rep
  out := second.out.trans first.out
  keeps := first.keeps.trans (first.out ▸ second.keeps)

section Moves

variable {g : Layout} (sound : g.Sound) {m : Chunks} {b : Books} (rep : Represents g m b)

include sound rep

theorem unlink_moved (sits : Sits g.nBlock b) (ordered : b.Ordered) (member : i ∈ b.free k) :
    Moved g b m (b.remove i k) (memsys5Unlink g i k m) where
  rep := unlink_represents sound rep sits ordered member
  out := rfl
  keeps := (unlink_relinked rep member).keeps sound (fun _ listed => free_below sits listed)
    fun j listed q l out => sits.clear j k q l listed out

theorem link_moved (holding : b.Holding g.nBlock i' k') (from_ : i' ≤ i)
    (inside : i + 2 ^ k ≤ i' + 2 ^ k') (absent : ∀ l, i ∉ b.free l)
    (marked : ctrl g i m.memory = CTRL_FREE ||| k) :
    Moved g b m (b.add i k) (memsys5Link g i k m) := by
  have sits := holding_sits holding
  have bound := holding.tiling.inside i' k' (Set.mem_insert _ _)
  have positive := two_pow k
  refine ⟨link_represents sound rep sits (by omega) absent marked,rfl,?_⟩
  refine (link_relinked rep i k).keeps sound (fun j touched => ?_) fun j touched q l out => ?_
  · rcases touched with rfl | listed
    · omega
    · exact free_below sits listed
  · rcases touched with rfl | listed
    · have := holding_clear holding out
      omega
    · exact sits.clear j k q l listed out

theorem setCtrl_moved (sits : Sits g.nBlock b) (bound : i < g.nBlock)
    (new : ∀ k, (i, k) ∉ b.tiles) (small : value < 256) :
    Moved g b m b (setCtrl g i value m) where
  rep := setCtrl_represents sound rep sits new small
  out := rfl
  keeps := setCtrl_keeps (fun q l out => sits.inside q l (Or.inl out)) bound value m

end Moves

theorem free_mark (k : Nat) (small : k < 28) : CTRL_FREE ||| k < 256 ∧
    (CTRL_FREE ||| k) = 32 + k := by
  have : ∀ k < 28, CTRL_FREE ||| k < 256 ∧ (CTRL_FREE ||| k) = 32 + k := by decide
  exact this k small

/-- No chunk of the books starts inside the one in hand. -/
theorem hand_inside (holding : Books.Holding n b i k) (l : Nat) (from_ : i ≤ j)
    (until_ : j < i + 2 ^ k) : (j, l) ∉ b.tiles := by
  intro tile
  have := two_pow l
  have same := holding.tiling.unique (Set.mem_insert (i, k) _) (Set.mem_insert_of_mem _ tile)
    (by omega) (by omega)
  exact holding.inHand (by rw [same.1,same.2]; exact tile)

/-- At the buddy's place the control byte is that of a chunk in the books, so what it says of
the buddy is so. -/
theorem buddy_listed (holding : Books.Holding g.nBlock b i k) (rep : Represents g m b)
    (small : k < 28) (fits : buddy i k + 2 ^ k ≤ g.nBlock)
    (marked : ctrl g (buddy i k) m.memory = CTRL_FREE ||| k) : buddy i k ∈ b.free k := by
  have mark := free_mark k small
  obtain ⟨l,short,out | free⟩ := holding.buddy_tile fits
  · have byte : ctrl g (buddy i k) m.memory = l := rep.outCtrl _ l out
    omega
  · have byte : ctrl g (buddy i k) m.memory = CTRL_FREE ||| l := rep.freeCtrl _ l free
    have := free_mark l (by omega)
    have equal : l = k := by omega
    exact equal ▸ free

/-- One round of the loop. Whichever half the buddy is, the lower one becomes the chunk. -/
theorem mergeLoop_step (g : Layout) (fuel i k : Nat) (m : Chunks) :
    mergeLoop g (fuel + 1) i k (2 ^ k) m =
      if g.nBlock < buddy i k + 2 ^ k then (i, k, m)
      else if ctrl g (buddy i k) m.memory ≠ CTRL_FREE ||| k then (i, k, m)
      else mergeLoop g fuel (min i (buddy i k)) (k + 1) (2 ^ (k + 1))
        (setCtrl g (max i (buddy i k)) 0
          (setCtrl g (min i (buddy i k)) (CTRL_FREE ||| (k + 1))
            (memsys5Unlink g (buddy i k) k m))) := by
  rw [Nat.pow_succ]
  by_cases before : buddy i k < i
  · rw [Nat.min_eq_right (Nat.le_of_lt before),Nat.max_eq_left (Nat.le_of_lt before)]
    rw [buddy] at before
    simp only [mergeLoop,buddy,before,↓reduceIte]
    rfl
  · rw [Nat.min_eq_left (by omega),Nat.max_eq_right (by omega)]
    rw [buddy] at before
    simp only [mergeLoop,buddy,before,↓reduceIte]
    rfl

section Loops

variable {g : Layout} (sound : g.Sound)

include sound

theorem hand_small (holding : Books.Holding g.nBlock b i k) : k < 28 := by
  have := holding.tiling.inside i k (Set.mem_insert _ _)
  have := nBlock_small sound
  by_contra large
  have : 2 ^ 28 ≤ 2 ^ k := Nat.pow_le_pow_right (by decide) (by omega)
  omega

/-- Induction on the log size in hand, down to the one asked for. -/
theorem splitLoop_moved (holding : b.Holding g.nBlock i iBin) (rep : Represents g m b)
    (smaller : k ≤ iBin) :
    ∃ b', b'.Holding g.nBlock i k ∧ Moved g b m b' (splitLoop g i k iBin m) := by
  induction iBin generalizing m b with
  | zero =>
    obtain rfl : k = 0 := by omega
    exact ⟨b,holding,rep,rfl,Keeps.refl g b.out m.memory⟩
  | succ iBin ih =>
    by_cases done : k = iBin + 1
    · subst done
      refine ⟨b,holding,?_⟩
      rw [splitLoop,if_neg (by omega)]
      exact ⟨rep,rfl,Keeps.refl g b.out m.memory⟩
    · have small := hand_small sound holding
      have mark := free_mark iBin (by omega)
      have inside := holding.tiling.inside i (iBin + 1) (Set.mem_insert _ _)
      have double := two_pow_succ iBin
      have positive := two_pow iBin
      have half := holding.split
      have new : ∀ l, (i + 2 ^ iBin, l) ∉ b.tiles := fun l =>
        hand_inside holding l (by omega) (by omega)
      have marked := setCtrl_moved sound rep (holding_sits holding)
        (by omega : i + 2 ^ iBin < g.nBlock) new mark.1
      have byte : ctrl g (i + 2 ^ iBin)
          (setCtrl g (i + 2 ^ iBin) (CTRL_FREE ||| iBin) m).memory = CTRL_FREE ||| iBin := by
        rw [ctrl_setCtrl mark.1,if_pos rfl]
      have linked := link_moved sound marked.rep holding (by omega : i ≤ i + 2 ^ iBin) (by omega)
        (fun l listed => new l (Or.inr listed)) byte
      obtain ⟨b',rest,moved⟩ := ih half linked.rep (by omega)
      refine ⟨b',rest,?_⟩
      rw [splitLoop,if_pos (by omega)]
      exact (marked.trans linked).trans moved

/-- Induction on the distance to LOGMAX, which no chunk of a pool below 2 GiB reaches: the loop ends
at a chunk whose buddy is not free. -/
theorem mergeLoop_moved (holding : b.Holding g.nBlock i k) (rep : Represents g m b)
    (marked : ctrl g i m.memory = CTRL_FREE ||| k) (distance : fuel + k = LOGMAX) :
    ∃ b' i' k' m', mergeLoop g fuel i k (2 ^ k) m = (i', k', m') ∧ b'.Holding g.nBlock i' k' ∧
      Moved g b m b' m' ∧ ctrl g i' m'.memory = CTRL_FREE ||| k' ∧ buddy i' k' ∉ b'.free k' := by
  induction fuel generalizing i k m b with
  | zero =>
    have := hand_small sound holding
    simp only [LOGMAX] at distance
    omega
  | succ fuel ih =>
    have sits := holding_sits holding
    have stop (alone : buddy i k ∉ b.free k) : ∃ b' i' k' m', (i, k, m) = (i', k', m') ∧
        b'.Holding g.nBlock i' k' ∧ Moved g b m b' m' ∧
          ctrl g i' m'.memory = CTRL_FREE ||| k' ∧ buddy i' k' ∉ b'.free k' :=
      ⟨b,i,k,m,rfl,holding,⟨rep,rfl,Keeps.refl g b.out m.memory⟩,marked,alone⟩
    rw [mergeLoop_step]
    by_cases beyond : g.nBlock < buddy i k + 2 ^ k
    · rw [if_pos beyond]
      exact stop fun listed => by
        have := sits.inside (buddy i k) k (Or.inr listed)
        omega
    by_cases other : ctrl g (buddy i k) m.memory ≠ CTRL_FREE ||| k
    · rw [if_neg beyond,if_pos other]
      exact stop fun listed => other (rep.freeCtrl _ k listed)
    rw [if_neg beyond,if_neg other]
    have small := hand_small sound holding
    have listed : buddy i k ∈ b.free k :=
      buddy_listed holding rep small (by omega) (not_not.mp other)
    have unlinked := unlink_moved sound rep sits holding.toOrdered listed
    have joined := holding.merge listed
    have mark := free_mark (k + 1) (hand_small sound joined)
    obtain ⟨run,-,pair⟩ := buddy_pair (holding.tiling.aligned i k (Set.mem_insert _ _))
    have positive := two_pow k
    have double := two_pow_succ k
    have start : min i (buddy i k) = run := by omega
    have upper : max i (buddy i k) = run + 2 ^ k := by omega
    rw [start] at joined
    rw [start,upper]
    have place := joined.tiling.inside _ (k + 1) (Set.mem_insert _ _)
    have sits' := holding_sits joined
    have first := setCtrl_moved sound unlinked.rep sits' (by omega : run < g.nBlock)
      (fun l => hand_inside joined l (by omega) (by omega)) mark.1
    have second := setCtrl_moved sound first.rep sits' (by omega : run + 2 ^ k < g.nBlock)
      (fun l => hand_inside joined l (by omega) (by omega)) (by decide : 0 < 256)
    have byte : ctrl g run (setCtrl g (run + 2 ^ k) 0 (setCtrl g run (CTRL_FREE ||| (k + 1))
        (memsys5Unlink g (buddy i k) k m))).memory = CTRL_FREE ||| (k + 1) := by
      rw [ctrl_setCtrl (by decide),if_neg (by omega),ctrl_setCtrl mark.1,if_pos rfl]
    obtain ⟨b',i',k',m',result,rest,moved,byte',alone⟩ := ih joined second.rep byte (by omega)
    exact ⟨b',i',k',m',result,rest,((unlinked.trans first).trans second).trans moved,byte',alone⟩

end Loops

end LuaKernel.Memsys5
