import LuaKernel.LuaTables

/-! What a store does that finds a place: it changes the value of its key and of no other, and it
uses one node at most. -/
namespace LuaKernel.LuaTables

open HashChains

variable {K V : Type} {h : Hashing K} {t t' : Table K V}

structure Valid (h : Hashing K) (t : Table K V) : Prop where
  sound : Sound (h.mainposition t.lsizenode) (2 ^ t.lsizenode) t.nodes
  outside : ∀ {i k}, (t.nodes.cell i).key = some k → inArray h t.array.length k = false
  spare : t.dummy = true → ∀ i, (t.nodes.cell i).key = none
  size : t.array.length ≤ MAXASIZE

/-- All slots of the array part are within the range of `int`. -/
theorem Valid.array_small (valid : Valid h t) : t.array.length + 1 < 2 ^ 31 := by
  have size := valid.size
  simp only [MAXASIZE,MAXBITS] at size
  omega

def position (h : Hashing K) (k : K) : Nat := (h.index k).getD 0 - 1

theorem inArray_iff : inArray h n k = true ↔ ∃ i, h.index k = some i ∧ i ≤ n := by
  simp [inArray,Option.any_eq_true]

theorem inArray_mono (inside : inArray h n k = true) (le : n ≤ m) : inArray h m k = true := by
  obtain ⟨i,index,bound⟩ := inArray_iff.mp inside
  exact inArray_iff.mpr ⟨i,index,bound.trans le⟩

theorem inArray_position (inside : inArray h n k = true) :
    position h k < n ∧ h.number (position h k + 1) = k := by
  obtain ⟨i,index,bound⟩ := inArray_iff.mp inside
  obtain ⟨positive,number⟩ := h.number_index index
  have at_ : position h k + 1 = i := by simp [position,index]; omega
  exact ⟨by omega,by rw [at_,number]⟩

theorem position_injective (inside : inArray h n k = true) (inside' : inArray h n k' = true)
    (same : position h k = position h k') : k = k' := by
  rw [← (inArray_position inside).2,← (inArray_position inside').2,same]

theorem inArray_zero (k : K) : inArray h 0 k = false := by
  by_contra inside
  have := (inArray_position (by simpa using inside)).1
  omega

theorem inArray_number (positive : 0 < i) (small : i < 2 ^ 31) :
    inArray h n (h.number i) = decide (i ≤ n) := by
  simp [inArray,h.index_number positive small]

variable [DecidableEq K]

theorem slot_eq (t : Table K V) (k : K) :
    slot h t k = if inArray h t.array.length k then some (.array (position h k))
      else nodeSlot h t k := by
  unfold slot inArray position
  cases h.index k <;> simp

theorem get_inside (inside : inArray h t.array.length k = true) :
    get h t k = t.array.getD (position h k) none := by
  simp [get,slot_eq,inside,read]

theorem get_outside (outside : inArray h t.array.length k = false) :
    get h t k = lookup (h.mainposition t.lsizenode) (2 ^ t.lsizenode) t.nodes k := by
  simp only [get,slot_eq,outside,nodeSlot,lookup,Bool.false_eq_true,if_false]
  cases find t.nodes.cell k (2 ^ t.lsizenode) (some (h.mainposition t.lsizenode k)) <;> rfl

def need (h : Hashing K) (size : Nat) (k : K) : Nat := if inArray h size k then 0 else 1

structure Placed (h : Hashing K) (t : Table K V) (k : K) (v : Option V) (t' : Table K V) :
    Prop where
  valid : Valid h t'
  get : ∀ k', get h t' k' = if k' = k then v else LuaTables.get h t k'
  array : t'.array.length = t.array.length
  lsizenode : t'.lsizenode = t.lsizenode
  dummy : t'.dummy = t.dummy
  used : used (2 ^ t.lsizenode) t'.nodes ≤ used (2 ^ t.lsizenode) t.nodes + need h t.array.length k

omit [DecidableEq K] in
theorem used_assign (size p : Nat) (v : Option V) (s : Cells K V) :
    used size (assign p v s) = used size s := by
  simp only [used,assign_key]

theorem placed_array (valid : Valid h t) (inside : inArray h t.array.length k = true)
    (v : Option V) : Placed h t k v (write t v (.array (position h k))) where
  valid := ⟨valid.sound,fun key => by simpa [write] using valid.outside key,valid.spare,
    by simpa [write] using valid.size⟩
  get k' := by
    by_cases inside' : inArray h t.array.length k' = true
    · rw [get_inside inside',get_inside (by simpa [write] using inside')]
      have bound := (inArray_position inside').1
      by_cases same : k' = k
      · subst same
        simp [write,bound]
      · have apart : position h k ≠ position h k' := fun equal =>
          same (position_injective inside' inside equal.symm)
        simp [write,List.getElem?_set_ne apart,same]
    · have outside : inArray h t.array.length k' = false := by simpa using inside'
      have other : k' ≠ k := fun same => inside' (same ▸ inside)
      rw [if_neg other,get_outside outside,get_outside (by simpa [write] using outside)]
      rfl
  array := by simp [write]
  lsizenode := rfl
  dummy := rfl
  used := by simp [write]

/-- A store in a node that has the key, behind an insertion that kept the values of the others. -/
theorem placed_node (valid : Valid h t) (outside : inArray h t.array.length k = false)
    (sound : Sound (h.mainposition t.lsizenode) (2 ^ t.lsizenode) nodes)
    (key : (nodes.cell p).key = some k)
    (others : ∀ k' w, k' ≠ k → (Stored nodes k' w ↔ Stored t.nodes k' w))
    (keys : ∀ {i k'}, (nodes.cell i).key = some k' → inArray h t.array.length k' = false)
    (spare : t.dummy = true → ∀ i, (nodes.cell i).key = none)
    (few : used (2 ^ t.lsizenode) nodes ≤ used (2 ^ t.lsizenode) t.nodes + 1) (v : Option V) :
    Placed h t k v (write { t with nodes := nodes } v (.node p)) where
  valid := ⟨sound.assign (by simp [key]) v,
    fun key' => keys ((assign_key p v nodes _).symm.trans key'),
    fun dummy i => (assign_key p v nodes i).trans (spare dummy i),valid.size⟩
  get k' := by
    by_cases inside' : inArray h t.array.length k' = true
    · have other : k' ≠ k := by
        rintro rfl
        simp [outside] at inside'
      rw [if_neg other,get_inside inside',get_inside (by simpa [write] using inside')]
      rfl
    · have outside' : inArray h t.array.length k' = false := by simpa using inside'
      rw [get_outside outside',get_outside (by simpa [write] using outside')]
      apply Option.ext
      intro w
      have stored := sound.stored_assign key v k' w
      simp only [write]
      rw [(sound.assign (by simp [key]) v).lookup_iff,stored]
      split_ifs with same
      · rfl
      · rw [valid.sound.lookup_iff,others k' w same]
  array := rfl
  lsizenode := rfl
  dummy := rfl
  used := by
    simp only [write,used_assign,need,outside]
    simpa using few

theorem nodeSlot_some (valid : Valid h t) (found : nodeSlot h t k = some s) :
    ∃ p, s = .node p ∧ (t.nodes.cell p).key = some k := by
  obtain ⟨p,place,rfl⟩ := Option.map_eq_some_iff.mp found
  exact ⟨p,rfl,(valid.sound.find_iff k p).mp place⟩

theorem nodeSlot_none (valid : Valid h t) (absent : nodeSlot h t k = none) (i : Nat) :
    (t.nodes.cell i).key ≠ some k := by
  intro key
  have found := (valid.sound.find_iff k i).mpr key
  simp [nodeSlot,found] at absent

theorem place_placed (valid : Valid h t) (done : place h t k v = some t') :
    Placed h t k v t' := by
  unfold place at done
  rw [slot_eq] at done
  by_cases inside : inArray h t.array.length k = true
  · simp only [inside,if_true,Option.some.injEq] at done
    exact done ▸ placed_array valid inside v
  · have outside : inArray h t.array.length k = false := by simpa using inside
    simp only [outside,Bool.false_eq_true,if_false] at done
    cases found : nodeSlot h t k with
    | some s =>
      obtain ⟨p,rfl,key⟩ := nodeSlot_some valid found
      simp only [found,Option.some.injEq] at done
      rw [← done]
      exact placed_node valid outside valid.sound key (fun _ _ _ => Iff.rfl) valid.outside
        valid.spare (by omega) v
    | none =>
      simp only [found,Option.map_eq_some_iff] at done
      obtain ⟨⟨s,t1⟩,new,rfl⟩ := done
      unfold newkey at new
      split at new
      · cases new
      rename_i real
      obtain ⟨⟨p,nodes⟩,inserted,same⟩ := Option.map_eq_some_iff.mp new
      cases same
      have inserted := insert_inserted valid.sound (nodeSlot_none valid found) inserted
      refine placed_node valid outside inserted.sound inserted.key inserted.others ?_
        (fun dummy => absurd dummy real) inserted.used_le v
      intro i k' key
      rcases inserted.keys key with rfl | ⟨j,key⟩
      · exact outside
      · exact valid.outside key

structure Room (t : Table K V) (n : Nat) : Prop where
  nodes : used (2 ^ t.lsizenode) t.nodes + n ≤ 2 ^ t.lsizenode
  real : t.dummy = true → n = 0

theorem place_room (valid : Valid h t) (room : Room t (need h t.array.length k)) (v : Option V) :
    ∃ t', place h t k v = some t' := by
  unfold place
  rw [slot_eq]
  by_cases inside : inArray h t.array.length k = true
  · exact ⟨_,by simp only [inside,if_true]; rfl⟩
  · have outside : inArray h t.array.length k = false := by simpa using inside
    simp only [need,outside,Bool.false_eq_true,if_false] at room
    have real : t.dummy = false := by
      by_contra dummy
      have := room.real (by simpa using dummy)
      omega
    obtain ⟨p,nodes,inserted⟩ := insert_room valid.sound (by have := room.nodes; omega) k
    simp only [outside,Bool.false_eq_true,if_false]
    cases nodeSlot h t k with
    | some s => exact ⟨_,rfl⟩
    | none => exact ⟨_,by simp only [newkey,real,inserted]; rfl⟩

end LuaKernel.LuaTables
