import LuaKernel.Memsys5

/-! What memsys5's memory says. The link words and the heads are doubly linked lists, the control
byte at the first block of a chunk holds its log size and whether it is free, and the control bytes
inside a chunk say nothing: they keep what earlier chunks left there. -/
namespace LuaKernel.Memsys5

open Bytes Grid Buddies LinkedLists

theorem int32_word (lower : -2 ^ 31 ≤ value) (upper : value < 2 ^ 31) :
    int32 (word value) = value := by
  unfold int32 word
  split <;> omega

theorem int32_range (value : Nat) : -2 ^ 31 ≤ int32 value ∧ int32 value < 2 ^ 31 := by
  unfold int32
  split <;> omega

theorem load_put_self (m : Memory) (address : Nat) (value : Int) :
    load (put m address (encode (word value) 4)) address 4 = word value := by
  have small : word value < 2 ^ 32 := by unfold word; omega
  exact load_u32 (put_holds m address _) small

theorem load_put_apart (m : Memory) (bytes : List UInt8)
    (apart : address + bytes.length ≤ other ∨ other + width ≤ address) :
    load (put m address bytes) other width = load m other width :=
  load_congr width fun i _ _ => put_outside m address bytes i (by omega)

/-- What `memsys5Init` makes of a heap below 2 GiB. -/
structure Layout.Sound (g : Layout) : Prop where
  atom : sizeofMem5Link ≤ g.szAtom
  size : g.nBlock * (g.szAtom + 1) < 2 ^ 31
  notNull : 0 < g.zPool

section Words

variable {g : Layout} (sound : g.Sound)

include sound

theorem block_apart (before : i < j) : g.block i + 8 ≤ g.block j := by
  have atom := sound.atom
  have step : (i + 1) * g.szAtom ≤ j * g.szAtom := Nat.mul_le_mul_right _ before
  rw [Nat.add_mul,Nat.one_mul] at step
  simp only [Layout.block,sizeofMem5Link] at *
  omega

theorem nBlock_small : g.nBlock < 2 ^ 28 := by
  have atom := sound.atom
  have size := sound.size
  have least : g.nBlock * 9 ≤ g.nBlock * (g.szAtom + 1) :=
    Nat.mul_le_mul_left _ (by simp only [sizeofMem5Link] at atom; omega)
  omega

/-- A link word is touched by a store to that word only. -/
theorem load_word_apart (first : offset = 0 ∨ offset = 4) (second : offset' = 0 ∨ offset' = 4)
    (different : ¬(j = i ∧ offset' = offset)) (m : Memory) (value : Int) :
    load (put m (g.block i + offset) (encode (word value) 4)) (g.block j + offset') 4 =
      load m (g.block j + offset') 4 := by
  apply load_put_apart
  rw [encode_length]
  rcases Nat.lt_trichotomy j i with before | rfl | behind
  · have := block_apart sound before
    omega
  · omega
  · have := block_apart sound behind
    omega

theorem linkNext_setNext (lower : -2 ^ 31 ≤ value) (upper : value < 2 ^ 31) (i : Nat)
    (m : Memory) : (linkNext g · (setNext g i value m)) =
      Function.update (linkNext g · m) i value := by
  funext j
  by_cases same : j = i
  · subst same
    rw [Function.update_self,linkNext,setNext,load_put_self,int32_word lower upper]
  · have apart := load_word_apart sound (Or.inl rfl) (Or.inl rfl) (fun both => same both.1) m value
    rw [Function.update_of_ne same]
    exact congrArg int32 apart

theorem linkPrev_setNext (i : Nat) (value : Int) (m : Memory) :
    (linkPrev g · (setNext g i value m)) = (linkPrev g · m) := by
  funext j
  exact congrArg int32 (load_word_apart sound (Or.inl rfl) (Or.inr rfl) (by omega) m value)

theorem linkNext_setPrev (i : Nat) (value : Int) (m : Memory) :
    (linkNext g · (setPrev g i value m)) = (linkNext g · m) := by
  funext j
  exact congrArg int32 (load_word_apart sound (Or.inr rfl) (Or.inl rfl) (by omega) m value)

theorem linkPrev_setPrev (lower : -2 ^ 31 ≤ value) (upper : value < 2 ^ 31) (i : Nat)
    (m : Memory) : (linkPrev g · (setPrev g i value m)) =
      Function.update (linkPrev g · m) i value := by
  funext j
  by_cases same : j = i
  · subst same
    rw [Function.update_self,linkPrev,setPrev,load_put_self,int32_word lower upper]
  · have apart := load_word_apart sound (Or.inr rfl) (Or.inr rfl) (fun both => same both.1) m value
    rw [Function.update_of_ne same]
    exact congrArg int32 apart

end Words

def view (g : Layout) (m : Chunks) : Links where
  next i := linkNext g i m.memory
  prev i := linkPrev g i m.memory
  first k := head k m

theorem head_set (list : List Int) (bound : k < list.length) (value : Int) :
    (fun l => (list.set k value).getD l (-1)) =
      Function.update (fun l => list.getD l (-1)) k value := by
  funext l
  by_cases same : l = k
  · subst same
    simp [List.getD,bound]
  · simp [List.getD,same,List.getElem?_set_ne (Ne.symm same)]

theorem view_unlink {g : Layout} (sound : g.Sound) (i : Nat)
    (bound : k < m.aiFreelist.length) :
    view g (memsys5Unlink g i k m) = unlink i k (view g m) := by
  have next := int32_range (load m.memory (g.block i) 4)
  have prev := int32_range (load m.memory (g.block i + 4) 4)
  rw [← linkNext] at next
  rw [← linkPrev] at prev
  by_cases first : linkPrev g i m.memory < 0 <;> by_cases last : 0 ≤ linkNext g i m.memory
  · simp only [view,memsys5Unlink,unlink,head,first,last,↓reduceIte,linkNext_setPrev sound,
      linkPrev_setPrev sound prev.1 prev.2,head_set _ bound]
  · simp only [view,memsys5Unlink,unlink,head,first,last,↓reduceIte,head_set _ bound]
  · simp only [view,memsys5Unlink,unlink,head,first,last,↓reduceIte,linkNext_setPrev sound,
      linkPrev_setPrev sound prev.1 prev.2,linkNext_setNext sound next.1 next.2,
      linkPrev_setNext sound]
  · simp only [view,memsys5Unlink,unlink,head,first,last,↓reduceIte,
      linkNext_setNext sound next.1 next.2,linkPrev_setNext sound]

theorem view_link {g : Layout} (sound : g.Sound) (small : i < 2 ^ 31)
    (bound : k < m.aiFreelist.length) (lower : -2 ^ 31 ≤ head k m) (upper : head k m < 2 ^ 31) :
    view g (memsys5Link g i k m) = link i k (view g m) := by
  have index : -2 ^ 31 ≤ (i : Int) ∧ (i : Int) < 2 ^ 31 := by omega
  by_cases some : 0 ≤ head k m
  · simp only [view,memsys5Link,link,some,↓reduceIte,linkNext_setPrev sound,
      linkPrev_setPrev sound index.1 index.2,
      linkPrev_setPrev sound (by decide : (-2 ^ 31 : Int) ≤ -1) (by decide),
      linkNext_setNext sound lower upper,linkPrev_setNext sound]
    simp only [head,head_set _ bound]
  · simp only [view,memsys5Link,link,some,↓reduceIte,linkNext_setPrev sound,
      linkPrev_setPrev sound (by decide : (-2 ^ 31 : Int) ≤ -1) (by decide),
      linkNext_setNext sound lower upper,linkPrev_setNext sound]
    simp only [head,head_set _ bound]

def Relinked (g : Layout) (P : Nat → Prop) (m m' : Memory) : Prop :=
  ∀ a, (∀ i, P i → a < g.block i ∨ g.block i + 8 ≤ a) → m' a = m a

structure Keeps (g : Layout) (out : Nat → Option Nat) (m m' : Memory) : Prop where
  chunks : ∀ i k a, out i = some k → g.block i ≤ a → a < g.block (i + 2 ^ k) → m' a = m a
  outside : ∀ a, a < g.zPool ∨ g.aCtrl + g.nBlock ≤ a → m' a = m a

theorem Relinked.trans {P : Nat → Prop} (first : Relinked g P m m') (second : Relinked g P m' m'') :
    Relinked g P m m'' :=
  fun a apart => (second a apart).trans (first a apart)

theorem relinked_next {P : Nat → Prop} (i : Nat) (value : Int) (m : Memory) (here : P i) :
    Relinked g P m (setNext g i value m) := fun a apart =>
  put_outside m _ _ a (by rw [encode_length]; have := apart i here; omega)

theorem relinked_prev {P : Nat → Prop} (i : Nat) (value : Int) (m : Memory) (here : P i) :
    Relinked g P m (setPrev g i value m) := fun a apart =>
  put_outside m _ _ a (by rw [encode_length]; have := apart i here; omega)

theorem Keeps.refl (g : Layout) (out : Nat → Option Nat) (m : Memory) : Keeps g out m m :=
  ⟨fun _ _ _ _ _ _ => rfl,fun _ _ => rfl⟩

theorem Keeps.trans (first : Keeps g out m m') (second : Keeps g out m' m'') :
    Keeps g out m m'' where
  chunks i k a held from_ until_ :=
    (second.chunks i k a held from_ until_).trans (first.chunks i k a held from_ until_)
  outside a away := (second.outside a away).trans (first.outside a away)

theorem block_mono (g : Layout) (order : i ≤ j) : g.block i ≤ g.block j :=
  Nat.add_le_add_left (Nat.mul_le_mul_right _ order) _

/-- What both a balanced set of books and one with a chunk in hand say about places. -/
structure Sits (n : Nat) (b : Books) : Prop where
  inside : ∀ i k, (i, k) ∈ b.tiles → i + 2 ^ k ≤ n
  clear : ∀ i k q l, i ∈ b.free k → b.out q = some l → i < q ∨ q + 2 ^ l ≤ i

theorem sits_of_tiling (tiling : Tiling n tiles) (ordered : b.Ordered)
    (all : ∀ t ∈ b.tiles, t ∈ tiles) : Sits n b where
  inside i k tile := tiling.inside i k (all _ tile)
  clear i k q l member out := by
    have different : (i, k) ≠ (q, l) := by
      intro same
      obtain ⟨rfl,rfl⟩ := Prod.mk.inj same
      simp [ordered.exclusive i k member] at out
    have apart := tiling.apart i k q l (all _ (Or.inr member)) (all _ (Or.inl out)) different
    have := two_pow k
    omega

theorem balanced_sits (balanced : b.Balanced n) : Sits n b :=
  sits_of_tiling balanced.tiling balanced.toOrdered fun _ tile => tile

theorem holding_sits (holding : b.Holding n i k) : Sits n b :=
  sits_of_tiling holding.tiling holding.toOrdered fun _ tile => Set.mem_insert_of_mem _ tile

/-- The chunk in hand is apart from those checked out. -/
theorem holding_clear (holding : Books.Holding n b i k) (out : b.out q = some l) :
    i + 2 ^ k ≤ q ∨ q + 2 ^ l ≤ i := by
  apply holding.tiling.apart i k q l (Set.mem_insert _ _) (Set.mem_insert_of_mem _ (Or.inl out))
  exact fun same => holding.inHand (same ▸ Or.inl out)

section Places

variable {g : Layout} (sound : g.Sound)

include sound

theorem Relinked.ctrl {P : Nat → Prop} (linked : Relinked g P m m')
    (inside : ∀ i, P i → i < g.nBlock) (j : Nat) : ctrl g j m' = ctrl g j m := by
  have same := linked (g.aCtrl + j) fun i here => by
    have := block_apart sound (inside i here)
    simp only [Layout.aCtrl]
    omega
  rw [Memsys5.ctrl,same,Memsys5.ctrl]

theorem Relinked.keeps {P : Nat → Prop} (linked : Relinked g P m m')
    (inside : ∀ i, P i → i < g.nBlock)
    (clear : ∀ i, P i → ∀ q l, out q = some l → i < q ∨ q + 2 ^ l ≤ i) : Keeps g out m m' where
  chunks q l a held from_ until_ := linked a fun i here => by
    rcases clear i here q l held with before | behind
    · have := block_apart sound before
      omega
    · have := block_mono g behind
      omega
  outside a away := linked a fun i here => by
    have := block_apart sound (inside i here)
    have : g.zPool ≤ g.block i := Nat.le_add_right _ _
    simp only [Layout.aCtrl] at away
    omega

omit sound in
theorem setCtrl_keeps (inside : ∀ q l, out q = some l → q + 2 ^ l ≤ g.nBlock)
    (bound : i < g.nBlock) (value : Nat) (m : Chunks) :
    Keeps g out m.memory (setCtrl g i value m).memory where
  chunks q l a held from_ until_ := by
    have := block_mono g (inside q l held)
    exact Function.update_of_ne (by simp only [Layout.aCtrl]; omega) _ _
  outside a away := by
    have : g.zPool ≤ g.aCtrl := Nat.le_add_right _ _
    exact Function.update_of_ne (by omega) _ _

omit sound in
theorem ctrl_setCtrl (small : value < 256) (i j : Nat) (m : Chunks) :
    ctrl g j (setCtrl g i value m).memory = if j = i then value else ctrl g j m.memory := by
  by_cases same : j = i
  · subst same
    simp [ctrl,setCtrl,Nat.mod_eq_of_lt small]
  · have apart : g.aCtrl + j ≠ g.aCtrl + i := by omega
    simp [ctrl,setCtrl,same]

theorem view_setCtrl (value i : Nat) (m : Chunks) (inside : j < g.nBlock) :
    (view g (setCtrl g i value m)).next j = (view g m).next j ∧
      (view g (setCtrl g i value m)).prev j = (view g m).prev j := by
  have before := block_apart sound inside
  have same : ∀ a, a < g.block j + 8 → (setCtrl g i value m).memory a = m.memory a := fun a low =>
    Function.update_of_ne (by simp only [Layout.aCtrl]; omega) _ _
  exact ⟨congrArg int32 (load_congr 4 fun a _ _ => same a (by omega)),
    congrArg int32 (load_congr 4 fun a _ _ => same a (by omega))⟩

end Places

structure Represents (g : Layout) (m : Chunks) (b : Books) : Prop where
  length : m.aiFreelist.length = LOGMAX + 1
  lists : Lists (view g m) b.free
  freeCtrl : ∀ i k, i ∈ b.free k → ctrl g i m.memory = CTRL_FREE ||| k
  outCtrl : ∀ i k, b.out i = some k → ctrl g i m.memory = k

section Steps

variable {g : Layout} (sound : g.Sound) {m : Chunks} {b : Books} (rep : Represents g m b)
  (sits : Sits g.nBlock b)

include sound sits

omit sound in
theorem free_below (member : i ∈ b.free k) : i < g.nBlock := by
  have := sits.inside i k (Or.inr member)
  have := two_pow k
  omega

theorem log_small (tile : (i, k) ∈ b.tiles) : k < 28 := by
  have := sits.inside i k tile
  have := nBlock_small sound
  by_contra large
  have : 2 ^ 28 ≤ 2 ^ k := Nat.pow_le_pow_right (by decide) (by omega)
  omega

include rep

omit sound sits in
theorem unlink_relinked (member : i ∈ b.free k) :
    Relinked g (· ∈ b.free k) m.memory (memsys5Unlink g i k m).memory := by
  obtain ⟨left,right,list⟩ := List.append_of_mem member
  have chain := rep.lists.chain k
  rw [list] at chain
  have next : 0 ≤ linkNext g i m.memory → (linkNext g i m.memory).toNat ∈ b.free k := by
    intro some
    rcases chain_next chain with none | ⟨j,inside,at_⟩
    · have none : linkNext g i m.memory = -1 := none
      omega
    · have at_ : linkNext g i m.memory = j := at_
      rw [at_,list]
      simp [inside]
  have prev : ¬linkPrev g i m.memory < 0 → (linkPrev g i m.memory).toNat ∈ b.free k := by
    intro some
    rcases chain_prev chain with ⟨-,none⟩ | ⟨j,inside,at_⟩
    · have none : linkPrev g i m.memory = -1 := none
      omega
    · have at_ : linkPrev g i m.memory = j := at_
      rw [at_,list]
      simp [inside]
  have kept : Relinked g (· ∈ b.free k) m.memory m.memory := fun _ _ => rfl
  by_cases first : linkPrev g i m.memory < 0 <;> by_cases last : 0 ≤ linkNext g i m.memory
  · simpa only [memsys5Unlink,first,last,↓reduceIte] using relinked_prev _ _ _ (next last)
  · simpa only [memsys5Unlink,first,last,↓reduceIte] using kept
  · simpa only [memsys5Unlink,first,last,↓reduceIte] using
      (relinked_next _ _ _ (prev first)).trans (relinked_prev _ _ _ (next last))
  · simpa only [memsys5Unlink,first,last,↓reduceIte] using relinked_next _ _ _ (prev first)

omit sound sits in
theorem unlink_length (i k : Nat) : (memsys5Unlink g i k m).aiFreelist.length = LOGMAX + 1 := by
  rw [← rep.length]
  by_cases first : linkPrev g i m.memory < 0 <;> by_cases last : 0 ≤ linkNext g i m.memory <;>
    simp [memsys5Unlink,first,last]

theorem unlink_represents (ordered : b.Ordered) (member : i ∈ b.free k) :
    Represents g (memsys5Unlink g i k m) (b.remove i k) := by
  have small := log_small sound sits (Or.inr member)
  have linked := unlink_relinked rep member
  have same : ∀ j, ctrl g j (memsys5Unlink g i k m).memory = ctrl g j m.memory :=
    linked.ctrl sound fun j inside => free_below sits inside
  refine ⟨unlink_length rep i k,?_,?_,?_⟩
  · rw [view_unlink sound i (by rw [rep.length,LOGMAX]; omega)]
    exact unlink_lists rep.lists member
  · intro j l listed
    rw [same]
    exact rep.freeCtrl j l ((Books.mem_remove (ordered.nodup k)).mp listed).2
  · intro j l out
    rw [same]
    exact rep.outCtrl j l out

omit sound sits in
theorem link_relinked (i k : Nat) :
    Relinked g (fun j => j = i ∨ j ∈ b.free k) m.memory (memsys5Link g i k m).memory := by
  have here : Relinked g (fun j => j = i ∨ j ∈ b.free k) m.memory
      (setPrev g i (-1) (setNext g i (head k m) m.memory)) :=
    (relinked_next _ _ _ (Or.inl rfl)).trans (relinked_prev _ _ _ (Or.inl rfl))
  by_cases some : 0 ≤ head k m
  · obtain ⟨rest,front⟩ := rep.lists.first_mem k some
    have member : (head k m).toNat ∈ b.free k := by rw [front]; simp [view]
    simpa only [memsys5Link,some,↓reduceIte] using here.trans (relinked_prev _ _ _ (Or.inr member))
  · simpa only [memsys5Link,some,↓reduceIte] using here

theorem link_represents (inside : i + 2 ^ k ≤ g.nBlock) (absent : ∀ l, i ∉ b.free l)
    (marked : ctrl g i m.memory = CTRL_FREE ||| k) :
    Represents g (memsys5Link g i k m) (b.add i k) := by
  have positive := two_pow k
  have below := nBlock_small sound
  have small : k < 28 := by
    by_contra large
    have : 2 ^ 28 ≤ 2 ^ k := Nat.pow_le_pow_right (by decide) (by omega)
    omega
  have same : ∀ j, ctrl g j (memsys5Link g i k m).memory = ctrl g j m.memory :=
    (link_relinked rep i k).ctrl sound fun j touched => by
      rcases touched with rfl | listed
      · omega
      · exact free_below sits listed
  have range : -2 ^ 31 ≤ head k m ∧ head k m < 2 ^ 31 := by
    by_cases some : 0 ≤ head k m
    · obtain ⟨rest,front⟩ := rep.lists.first_mem k some
      have member : (head k m).toNat ∈ b.free k := by rw [front]; simp [view]
      have := free_below sits member
      omega
    · have empty := (rep.lists.first_negative k).mp (by simp only [view]; omega)
      have chain := rep.lists.chain k
      rw [empty] at chain
      have none : head k m = -1 := chain
      omega
  refine ⟨by simp [memsys5Link,rep.length],?_,?_,?_⟩
  · rw [view_link sound (by omega) (by rw [rep.length,LOGMAX]; omega) range.1 range.2]
    exact link_lists rep.lists absent k
  · intro j l listed
    rw [same]
    rcases Books.mem_add.mp listed with ⟨rfl,rfl⟩ | older
    · exact marked
    · exact rep.freeCtrl j l older
  · intro j l out
    rw [same]
    exact rep.outCtrl j l out

/-- The control byte of a block that starts no chunk in the books is free to change. -/
theorem setCtrl_represents (new : ∀ k, (i, k) ∉ b.tiles) (small : value < 256) :
    Represents g (setCtrl g i value m) b := by
  refine ⟨rep.length,?_,?_,?_⟩
  · exact rep.lists.congr rfl
      (fun k j member => (view_setCtrl sound value i m (free_below sits member)).1)
      (fun k j member => (view_setCtrl sound value i m (free_below sits member)).2)
  · intro j k member
    have other : j ≠ i := fun same => new k (same ▸ Or.inr member)
    rw [ctrl_setCtrl small,if_neg other]
    exact rep.freeCtrl j k member
  · intro j k out
    have other : j ≠ i := fun same => new k (same ▸ Or.inl out)
    rw [ctrl_setCtrl small,if_neg other]
    exact rep.outCtrl j k out

end Steps

end LuaKernel.Memsys5
