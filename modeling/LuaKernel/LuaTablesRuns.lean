import Mathlib.Data.List.Dedup
import Mathlib.Tactic.Positivity
import Mathlib.Tactic.Zify
import LuaKernel.LuaTablesRehash
import LuaKernel.Runs

/-! Any run of stores from an empty table. A table reads as the last value stored under each key,
whatever the hashes of the keys are and however often it was rehashed. -/
namespace LuaKernel.LuaTables

open HashChains Runs

variable {K V : Type} [DecidableEq K] {h : Hashing K} {t t' : Table K V}

theorem store_stored (valid : Valid h t) (few : (entries h t).length < 2 ^ MAXBITS) (k : K)
    (v : Option V) :
    ∃ t', store h t k v = some t' ∧ Valid h t' ∧
      ∀ k', get h t' k' = if k' = k then v else get h t k' := by
  unfold store
  cases done : place h t k v with
  | some t' =>
    have placed := place_placed valid done
    exact ⟨t',rfl,placed.valid,placed.get⟩
  | none =>
    obtain ⟨grown,nasize,rehashed,resized,-⟩ := rehash_resized valid k few
    obtain ⟨t',placed⟩ := place_room resized.valid (by rw [resized.array]; exact resized.room) v
    have final := place_placed resized.valid placed
    refine ⟨t',by simp [rehashed,placed],final.valid,fun k' => ?_⟩
    rw [final.get,resized.get]

omit [DecidableEq K] in
theorem number_ne (positive : 0 < i) (less : i < j) (small : j < 2 ^ 31) :
    h.number i ≠ h.number j := by
  intro same
  have index := h.index_number positive (by omega)
  rw [same,h.index_number (by omega) small] at index
  have := Option.some.inj index
  omega

omit [DecidableEq K] in
theorem slice_nodup (i : Nat) (l : List (Option V)) (small : i + l.length < 2 ^ 31) :
    ((slice h i l).map Prod.fst).Nodup := by
  induction l generalizing i with
  | nil => exact List.nodup_nil
  | cons o l ih =>
    rw [List.length_cons] at small
    have rest := ih (i + 1) (by omega)
    cases o with
    | none => exact rest
    | some v =>
      refine List.nodup_cons.mpr ⟨fun member => ?_,rest⟩
      obtain ⟨⟨k,w⟩,member,same⟩ := List.mem_map.mp member
      obtain ⟨j,value,rfl⟩ := mem_slice.mp member
      have bound := (List.getElem?_eq_some_iff.mp value).1
      exact number_ne (by omega) (by omega) (by omega) same.symm

omit [DecidableEq K] in
theorem nodeEntries_nodup (valid : Valid h t) : ((nodeEntries t).map Prod.fst).Nodup := by
  rw [nodeEntries,List.map_filterMap]
  refine List.Nodup.filterMap ?_ (List.nodup_reverse.mpr List.nodup_range)
  have key : ∀ {i k}, k ∈ (nodeEntry (t.nodes.cell i)).map Prod.fst →
      (t.nodes.cell i).key = some k := by
    intro i k member
    obtain ⟨⟨k,v⟩,entry,rfl⟩ := Option.map_eq_some_iff.mp member
    exact (nodeEntry_iff.mp entry).1
  intro i j k first second
  exact valid.sound.unique (key first) (key second)

theorem entries_nodup (valid : Valid h t) : ((entries h t).map Prod.fst).Nodup := by
  have size := valid.array_small
  rw [entries,List.map_append]
  refine List.Nodup.append (slice_nodup 0 t.array (by omega)) (nodeEntries_nodup valid) ?_
  intro k first second
  obtain ⟨⟨k1,v⟩,array,rfl⟩ := List.mem_map.mp first
  obtain ⟨⟨k2,w⟩,node,same⟩ := List.mem_map.mp second
  obtain rfl : k2 = k1 := same
  have inside := ((mem_slice_drop valid 0).mp array).1
  have outside := ((mem_nodeEntries valid).mp node).1
  simp [inside] at outside

/-- A table has no more values than keys that were ever stored. -/
theorem entries_length (valid : Valid h t) (keys : List K)
    (known : ∀ k v, get h t k = some v → k ∈ keys) :
    (entries h t).length ≤ keys.dedup.length := by
  have subset : (entries h t).map Prod.fst ⊆ keys.dedup := by
    intro k member
    obtain ⟨⟨k,v⟩,entry,rfl⟩ := List.mem_map.mp member
    exact List.mem_dedup.mpr (known k v ((mem_entries valid).mp entry))
  simpa using ((entries_nodup valid).subperm subset).length_le

abbrev Store (K V : Type) := K × Option V

def step (h : Hashing K) (t : Table K V) (s : Store K V) : Option (Table K V) := store h t s.1 s.2

def latest (f : K → Option V) : List (Store K V) → K → Option V
  | [] => f
  | (k, v) :: rest => latest (Function.update f k v) rest

omit [DecidableEq K] in
theorem valid_new (h : Hashing K) : Valid h (new : Table K V) where
  sound := sound_blank fun k => h.bound
  outside key := by simp [new,blank] at key
  spare _ _ := rfl
  size := Nat.zero_le _

theorem get_new (k : K) : get h (new : Table K V) k = none := by
  rw [get_outside (inArray_zero k)]
  apply Option.ext
  intro v
  rw [(valid_new h).sound.lookup_iff]
  simp [Stored,new,blank]

/-- What a run reaches from any table whose keys are known. -/
theorem stores_valid (keys : List K) (stores : List (Store K V)) (valid : Valid h t)
    (known : ∀ k v, get h t k = some v → k ∈ keys)
    (few : (keys ++ stores.map Prod.fst).dedup.length < 2 ^ MAXBITS) :
    ∃ t', run (step h) t stores = some t' ∧ Valid h t' ∧
      (∀ k, get h t' k = latest (get h t) stores k) ∧
      ∀ k v, get h t' k = some v → k ∈ keys ++ stores.map Prod.fst := by
  induction stores generalizing t keys with
  | nil => exact ⟨t,rfl,valid,fun _ => rfl,by simpa using known⟩
  | cons s rest ih =>
    obtain ⟨k,v⟩ := s
    have fewer : (entries h t).length < 2 ^ MAXBITS := by
      refine Nat.lt_of_le_of_lt (entries_length valid (keys ++ ((k, v) :: rest).map Prod.fst)
        fun k' w value => ?_) few
      exact List.mem_append_left _ (known k' w value)
    obtain ⟨t1,stored,valid1,value⟩ := store_stored valid fewer k v
    have shift : keys ++ ((k, v) :: rest).map Prod.fst = (keys ++ [k]) ++ rest.map Prod.fst := by
      simp
    have known1 : ∀ k' w, get h t1 k' = some w → k' ∈ keys ++ [k] := by
      intro k' w found
      rw [value] at found
      split_ifs at found with same
      · simp [same]
      · exact List.mem_append_left _ (known k' w found)
    obtain ⟨t',ran,valid',read,known'⟩ := ih (keys ++ [k]) valid1 known1 (shift ▸ few)
    have updated : get h t1 = Function.update (get h t) k v := by
      funext k'
      rw [value,Function.update_apply]
    refine ⟨t',(run_cons ..).mpr ⟨t1,stored,ran⟩,valid',fun k' => ?_,shift ▸ known'⟩
    rw [read,updated,latest]

theorem run_valid {stores : List (Store K V)}
    (few : (stores.map Prod.fst).dedup.length < 2 ^ MAXBITS) :
    ∃ t', run (step h) new stores = some t' ∧ Valid h t' ∧
      (∀ k, get h t' k = latest (fun _ => none) stores k) ∧
      (entries h t').length < 2 ^ MAXBITS := by
  obtain ⟨t',ran,valid,read,known⟩ := stores_valid [] stores (valid_new h)
    (fun k v value => by simp [get_new] at value) (by simpa using few)
  have start : get h (new : Table K V) = fun _ => none := funext get_new
  exact ⟨t',ran,valid,fun k => by rw [read,start],
    Nat.lt_of_le_of_lt (entries_length valid _ known) (by simpa using few)⟩

/-- While fewer than 2^30 keys are in use no store fails, and every key reads as the last value
stored under it. -/
theorem stores_kept (h : Hashing K) (stores : List (Store K V))
    (few : (stores.map Prod.fst).dedup.length < 2 ^ MAXBITS) :
    ∃ t, run (step h) new stores = some t ∧ ∀ k, get h t k = latest (fun _ => none) stores k := by
  obtain ⟨t,ran,-,read,-⟩ := run_valid (h := h) few
  exact ⟨t,ran,read⟩

def residues : Hashing Int where
  index k := if 0 < k ∧ k < 2 ^ 31 then some k.toNat else none
  number i := i
  mainposition lsize k := (k % 2 ^ lsize).toNat
  index_zero := rfl
  index_number positive small := by
    rw [if_pos (by omega)]
    simp
  number_index found := by
    split_ifs at found with inside
    have := Option.some.inj found
    omega
  bound {lsize k} := by
    have positive : (0 : Int) < 2 ^ lsize := by positivity
    have below := Int.emod_lt_of_pos k positive
    zify
    have := Int.emod_nonneg k (ne_of_gt positive)
    omega

/-- Two keys that collide, and one for the array part. -/
theorem collision_kept :
    ∃ t, run (step residues) new [(-8, some 1), (8, some 2), (1, some 3), (-8, none)] = some t ∧
      ∀ k, get residues t k =
        latest (fun _ => none) [(-8, some 1), (8, some 2), (1, some 3), (-8, none)] k :=
  stores_kept residues _ (by decide)

/-- A rehash after any run keeps all values and leaves a place for the new key, so that none
follows it at once. Of the powers of two that would be more than half used, its array part has one
that takes most keys. -/
theorem rehash_suffices (h : Hashing K) (stores : List (Store K V))
    (few : (stores.map Prod.fst).dedup.length < 2 ^ MAXBITS)
    (ran : run (step h) new stores = some t) (ek : K) :
    ∃ t', rehash h t ek = some t' ∧ (∀ k, get h t' k = latest (fun _ => none) stores k) ∧
      (∀ v, ∃ final, place h t' ek v = some final) ∧
      (t'.array.length = 0 ∨ ∃ m ≤ MAXBITS, t'.array.length = 2 ^ m ∧
        t'.array.length / 2 < within h t'.array.length (keysWith h t ek)) ∧
      ∀ m ≤ MAXBITS, 2 ^ m / 2 < within h (2 ^ m) (keysWith h t ek) →
        within h (2 ^ m) (keysWith h t ek) ≤ within h t'.array.length (keysWith h t ek) := by
  obtain ⟨start,ran',valid,read,fewer⟩ := run_valid (h := h) few
  obtain rfl : start = t := Option.some.inj (ran'.symm.trans ran)
  obtain ⟨t',nasize,rehashed,resized,chosen⟩ := rehash_resized valid ek fewer
  obtain rfl : t'.array.length = nasize := resized.array
  exact ⟨t',rehashed,fun k => (resized.get k).trans (read k),
    place_room resized.valid resized.room,chosen.size,chosen.most⟩

/-- The fifth slot behind four, and a key that has no slot. -/
theorem fifth_suffices :
    ∃ t t', run (step residues) new
        [(1, some 1), (2, some 2), (3, some 3), (4, some 4), (-1, some 5)] = some t ∧
      rehash residues t 5 = some t' ∧ ∀ v, ∃ final, place residues t' 5 v = some final := by
  have few : (([(1, some 1), (2, some 2), (3, some 3), (4, some 4), (-1, some 5)] :
      List (Store Int Nat)).map Prod.fst).dedup.length < 2 ^ MAXBITS := by decide
  obtain ⟨t,ran,-⟩ := run_valid (h := residues) few
  obtain ⟨t',rehashed,-,room,-⟩ := rehash_suffices residues _ few ran 5
  exact ⟨t,t',ran,rehashed,room⟩

end LuaKernel.LuaTables
