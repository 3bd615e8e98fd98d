import LuaKernel.Memsys5Moves

/-! What one call of memsys5 does to the books: an allocation checks out a new chunk of the log
size asked for, or finds every list from that size on empty; a free puts the chunk back, joined
with as many buddies as are free. -/
namespace LuaKernel.Memsys5

open Bytes Grid Buddies LinkedLists

structure Kept (g : Layout) (m : Chunks) (b : Books) : Prop where
  rep : Represents g m b
  balanced : b.Balanced g.nBlock

/-- The first list from `k` on that is not empty. -/
theorem binLoop_spec (m : Chunks) (fuel k : Nat) : k ≤ binLoop m fuel k ∧
    (∀ l, k ≤ l → l < binLoop m fuel k → head l m < 0) ∧
    (binLoop m fuel k ≤ LOGMAX → LOGMAX < k + fuel → 0 ≤ head (binLoop m fuel k) m) := by
  induction fuel generalizing k with
  | zero => exact ⟨Nat.le_refl k,fun l from_ until_ => by simp only [binLoop] at until_; omega,
      fun low enough => by simp only [binLoop] at low; omega⟩
  | succ fuel ih =>
    obtain ⟨from_,empty,found⟩ := ih (k + 1)
    by_cases next : k ≤ LOGMAX ∧ head k m < 0
    · simp only [binLoop,next,and_self,↓reduceIte]
      refine ⟨by omega,fun l lower upper => ?_,fun low enough => found low (by omega)⟩
      by_cases here : l = k
      · exact here ▸ next.2
      · exact empty l (by omega) upper
    · simp only [binLoop,next,↓reduceIte]
      exact ⟨Nat.le_refl k,fun l lower upper => by omega,fun low _ => by omega⟩

/-- How the choice of a chunk of log size `k` can end. -/
inductive CheckedOut (g : Layout) (m : Chunks) (b : Books) (k : Nat) : Option (Nat × Chunks) → Prop
  | refused (empty : ∀ l, k ≤ l → b.free l = []) : CheckedOut g m b k none
  | served (absent : b.out i = none) (kept : Kept g m' b')
      (out : b'.out = Function.update b.out i (some k))
      (keeps : Keeps g b.out m.memory m'.memory) : CheckedOut g m b k (some (i, m'))

section Calls

variable {g : Layout} (sound : g.Sound) {m : Chunks} {b : Books} (kept : Kept g m b)

include sound kept

theorem checkOut_ends (k : Nat) : CheckedOut g m b k (checkOut g k m) := by
  have sits := balanced_sits kept.balanced
  obtain ⟨from_,empty,found⟩ := binLoop_spec m (LOGMAX + 1) k
  simp only [checkOut]
  generalize binLoop m (LOGMAX + 1) k = iBin at from_ empty found ⊢
  by_cases none : LOGMAX < iBin
  · rw [if_pos none]
    refine .refused fun l lower => ?_
    by_cases inside : l < iBin
    · exact (kept.rep.lists.first_negative l).mp (empty l lower inside)
    · rw [List.eq_nil_iff_forall_not_mem]
      intro i member
      have := log_small sound sits (Or.inr member : (i, l) ∈ b.tiles)
      simp only [LOGMAX] at none
      omega
  · rw [if_neg none]
    obtain ⟨rest,front⟩ := kept.rep.lists.first_mem iBin (found (by omega) (by omega))
    have front : b.free iBin = (head iBin m).toNat :: rest := front
    have member : (head iBin m).toNat ∈ b.free iBin := by simp [front]
    generalize (head iBin m).toNat = i at member ⊢
    have unlinked := unlink_moved sound kept.rep sits kept.balanced.toOrdered member
    obtain ⟨b',holding,split⟩ := splitLoop_moved sound (kept.balanced.take member) unlinked.rep
      from_
    have moved := unlinked.trans split
    generalize splitLoop g i k iBin (memsys5Unlink g i iBin m) = m' at moved
    have small := hand_small sound holding
    have place := holding.tiling.inside i k (Set.mem_insert _ _)
    have positive := two_pow k
    have last := setCtrl_moved sound moved.rep (holding_sits holding) (by omega : i < g.nBlock)
      (fun l => hand_inside holding l (Nat.le_refl i) (by omega)) (by omega : k < 256)
    have marked : ctrl g i (setCtrl g i k m').memory = k := by
      rw [ctrl_setCtrl (by omega),if_pos rfl]
    have rep : Represents g (setCtrl g i k m') (b'.checkout i k) := by
      refine ⟨last.rep.length,last.rep.lists,last.rep.freeCtrl,fun j l out => ?_⟩
      by_cases here : j = i
      · subst here
        simp only [Books.checkout,Function.update_self,Option.some.injEq] at out
        rw [marked,out]
      · exact last.rep.outCtrl j l (by simpa [Books.checkout,here] using out)
    exact .served (moved.out ▸ holding.absent.1) ⟨rep,holding.checkout⟩
      (by rw [← moved.out]; rfl) (moved.trans last).keeps

omit sound in
theorem released_rep (i : Nat) : Represents g m (b.release i) where
  length := kept.rep.length
  lists := kept.rep.lists
  freeCtrl := kept.rep.freeCtrl
  outCtrl j k out := by
    by_cases here : j = i
    · simp [Books.release,here] at out
    · exact kept.rep.outCtrl j k (by simpa [Books.release,here] using out)

/-- The control bytes written first are inside the chunk; the merge starts from the log size the
first of them held. -/
theorem giveBack_gives (live : b.out i = some k) :
    ∃ b', Kept g (giveBack g i k m) b' ∧ b'.out = Function.update b.out i none ∧
      Keeps g b'.out m.memory (giveBack g i k m).memory := by
  have holding := kept.balanced.release live
  have small := hand_small sound holding
  have mark := free_mark k small
  have place := holding.tiling.inside i k (Set.mem_insert _ _)
  have positive := two_pow k
  have sits := holding_sits holding
  have within : ∀ j, i ≤ j → j < i + 2 ^ k → ∀ l, (j, l) ∉ (b.release i).tiles :=
    fun j from_ until_ l => hand_inside holding l from_ until_
  have byteSmall : ∀ (m : Chunks) j, ctrl g j m.memory ||| CTRL_FREE < 256 := fun m j =>
    Nat.or_lt_two_pow (n := 8) (m.memory _).toNat_lt (by decide)
  simp only [giveBack]
  have first := setCtrl_moved sound (released_rep kept i) sits (by omega : i < g.nBlock)
    (within i (by omega) (by omega)) (byteSmall m i)
  generalize setCtrl g i (ctrl g i m.memory ||| CTRL_FREE) m = m₁ at first ⊢
  have second := setCtrl_moved sound first.rep sits (by omega : i + 2 ^ k - 1 < g.nBlock)
    (within _ (by omega) (by omega)) (byteSmall m₁ (i + 2 ^ k - 1))
  generalize setCtrl g (i + 2 ^ k - 1) _ m₁ = m₂ at second ⊢
  have third := setCtrl_moved sound second.rep sits (by omega : i < g.nBlock)
    (within i (by omega) (by omega)) mark.1
  have marked : ctrl g i (setCtrl g i (CTRL_FREE ||| k) m₂).memory = CTRL_FREE ||| k := by
    rw [ctrl_setCtrl mark.1,if_pos rfl]
  have distance : LOGMAX - k + k = LOGMAX := by simp only [LOGMAX]; omega
  obtain ⟨b',i',k',m',result,hand,merged,byte',alone⟩ :=
    mergeLoop_moved sound holding third.rep marked distance
  rw [result]
  have linked := link_moved sound merged.rep hand (Nat.le_refl i') (Nat.le_refl _)
    hand.absent.2 byte'
  have whole := (((first.trans second).trans third).trans merged).trans linked
  refine ⟨b'.add i' k',⟨linked.rep,hand.add alone⟩,whole.out,?_⟩
  rw [whole.out]
  exact whole.keeps

omit kept in
theorem indexOf_block (i : Nat) : indexOf g (g.block i) = i := by
  have atom := sound.atom
  rw [indexOf,Layout.block,Nat.add_sub_cancel_left]
  exact Nat.mul_div_cancel i (by simp only [sizeofMem5Link] at atom; omega)

/-- The control byte of a chunk that is checked out gives its log size. -/
theorem logOf_live (live : b.out i = some k) : logOf g i m = k := by
  have small := hand_small sound (kept.balanced.release live)
  have mask : ∀ k < 28, k &&& CTRL_LOGSIZE = k := by decide
  rw [logOf,kept.rep.outCtrl i k live,mask k small]

/-- Whatever is stored into chunks that are checked out, the books stay as they are. -/
theorem store_kept (memory : Memory) (same : ∀ a, (∀ i k, b.out i = some k →
    a < g.block i ∨ g.block (i + 2 ^ k) ≤ a) → memory a = m.memory a) :
    Kept g { m with memory := memory } b := by
  have sits := balanced_sits kept.balanced
  have words : ∀ k, ∀ j ∈ b.free k, ∀ a, g.block j ≤ a → a < g.block j + 8 →
      memory a = m.memory a := by
    intro k j member a from_ until_
    refine same a fun i l out => ?_
    rcases sits.clear j k i l member out with before | behind
    · have := block_apart sound before
      omega
    · have := block_mono g behind
      omega
  have bytes : ∀ j, ctrl g j memory = ctrl g j m.memory := fun j => by
    have byte := same (g.aCtrl + j) fun i k out => by
      have := block_mono g (sits.inside i k (Or.inl out))
      simp only [Layout.aCtrl]
      omega
    rw [ctrl,byte,ctrl]
  refine ⟨⟨kept.rep.length,?_,fun i k member => (bytes i).trans (kept.rep.freeCtrl i k member),
    fun i k out => (bytes i).trans (kept.rep.outCtrl i k out)⟩,kept.balanced⟩
  refine kept.rep.lists.congr rfl (fun k j member => congrArg int32 ?_)
    (fun k j member => congrArg int32 ?_)
  · exact load_congr 4 fun a from_ until_ => words k j member a from_ (by omega)
  · exact load_congr 4 fun a from_ until_ => words k j member a (by omega) (by omega)

end Calls

end LuaKernel.Memsys5
