import LuaKernel.LuaTablesRuns

/-! The length of a table. The searches of `luaH_getn` end at a border: a slot that is present, or
0, before one that is not. A table that is used as a sequence has one border only, so the length
operator and stores at the end make it a list. -/
namespace LuaKernel.LuaTables

open HashChains Runs

structure Edge (present : Nat → Bool) (n : Nat) : Prop where
  last : n = 0 ∨ present n = true
  next : present (n + 1) = false

variable {p : Nat → Bool}

theorem binary_edge (fuel : Nat) (low : i = 0 ∨ p i = true) (high : p j = false) (less : i < j)
    (enough : j ≤ i + fuel) : Edge p (binary p fuel i j) ∧ binary p fuel i j < j := by
  induction fuel generalizing i j with
  | zero => omega
  | succ fuel ih =>
    unfold binary
    split
    · dsimp only
      split
      · rename_i found
        exact ih (.inr found) high (by omega) (by omega)
      · rename_i missing
        have := ih low (by simpa using missing) (by omega : i < (i + j) / 2) (by omega)
        exact ⟨this.1,by omega⟩
    · obtain rfl : j = i + 1 := by omega
      exact ⟨⟨low,high⟩,by omega⟩

theorem linear_edge (fuel : Nat) (before : i = 0 ∨ p i = true) (missing : p m = false)
    (above : i < m) (enough : m ≤ i + fuel) :
    Edge p (linear p fuel (i + 1)) ∧ linear p fuel (i + 1) < m := by
  induction fuel generalizing i with
  | zero => omega
  | succ fuel ih =>
    unfold linear
    split
    · rename_i found
      have other : i + 1 ≠ m := by
        rintro rfl
        simp [missing] at found
      exact ih (.inr found) (by omega) (by omega)
    · rename_i absent
      exact ⟨⟨before,by simpa using absent⟩,by omega⟩

/-- The slots between which the binary search of the hash part goes on. -/
theorem double_edge (low : i = 0 ∨ p i = true) (less : i < j) (small : j ≤ MAX_INT)
    (found : double p fuel i j = some (i', j')) :
    (i' = 0 ∨ p i' = true) ∧ p j' = false ∧ i' < j' ∧ j' ≤ MAX_INT := by
  induction fuel generalizing i j with
  | zero => cases found
  | succ fuel ih =>
    unfold double at found
    split at found
    · rename_i here
      split at found
      · cases found
      · exact ih (.inr here) (by omega) (by omega) found
    · rename_i missing
      cases found
      exact ⟨low,by simpa using missing,less,small⟩

variable {K V : Type} [DecidableEq K] {h : Hashing K} {t t' : Table K V}

theorem present_array (valid : Valid h t) (positive : 0 < m) (inside : m ≤ t.array.length) :
    present h t m = (t.array.getD (m - 1) none).isSome := by
  have size := valid.array_small
  have index := h.index_number positive (by omega)
  rw [present,get_inside (inArray_iff.mpr ⟨m,index,inside⟩),position,index]
  rfl

/-- Not all slots up to one more than the number of values are present. -/
theorem missing_slot (valid : Valid h t) (few : (entries h t).length < 2 ^ MAXBITS) :
    ∃ m, 0 < m ∧ m ≤ (entries h t).length + 1 ∧ present h t m = false := by
  by_contra all
  push Not at all
  simp only [MAXBITS] at few
  have nodup : ((List.range ((entries h t).length + 1)).map fun i => h.number (i + 1)).Nodup := by
    refine List.Nodup.map_on (fun i first j second same => ?_) List.nodup_range
    rw [List.mem_range] at first second
    rcases Nat.lt_trichotomy i j with less | rfl | less
    · exact absurd same (number_ne (by omega) (by omega) (by omega))
    · rfl
    · exact absurd same.symm (number_ne (by omega) (by omega) (by omega))
  have subset : (List.range ((entries h t).length + 1)).map (fun i => h.number (i + 1)) ⊆
      (entries h t).map Prod.fst := by
    intro k member
    obtain ⟨i,bound,rfl⟩ := List.mem_map.mp member
    rw [List.mem_range] at bound
    have here : present h t (i + 1) = true := by simpa using all (i + 1) (by omega) (by omega)
    obtain ⟨v,value⟩ := Option.isSome_iff_exists.mp here
    exact List.mem_map.mpr ⟨(h.number (i + 1), v),(mem_entries valid).mpr value,rfl⟩
  have := (nodup.subperm subset).length_le
  simp at this

omit [DecidableEq K] in
theorem entries_le (t : Table K V) :
    (entries h t).length ≤ t.array.length + (nodeEntries t).length := by
  have := List.countP_le_length (p := Option.isSome) (l := t.array)
  rw [entries,List.length_append,slice_length]
  omega

theorem getn_edge (valid : Valid h t) (few : (entries h t).length < 2 ^ MAXBITS) :
    Edge (present h t) (getn h t) ∧ getn h t < MAX_INT := by
  have size := valid.size
  have limit : MAXASIZE + 1 < MAX_INT := by decide
  unfold getn
  dsimp only
  split
  · rename_i hole
    obtain ⟨positive,hole⟩ := hole
    obtain ⟨⟨last,next⟩,less⟩ := binary_edge (p := fun m => (t.array.getD (m - 1) none).isSome)
      t.array.length (.inl rfl) (by simpa using hole) positive (by omega)
    refine ⟨⟨?_,?_⟩,by omega⟩
    · by_cases zero : binary (fun m => (t.array.getD (m - 1) none).isSome) t.array.length 0
          t.array.length = 0
      · exact .inl zero
      · rw [present_array valid (by omega) (by omega)]
        exact last
    · rw [present_array valid (by omega) (by omega)]
      exact next
  · rename_i full
    have low : t.array.length = 0 ∨ present h t t.array.length = true := by
      by_cases zero : t.array.length = 0
      · exact .inl zero
      · rw [present_array valid (by omega) (Nat.le_refl _)]
        refine .inr ?_
        by_contra none
        exact full ⟨by omega,by simpa using none⟩
    split
    · rename_i dummy
      refine ⟨⟨low,?_⟩,by omega⟩
      have outside : inArray h t.array.length (h.number (t.array.length + 1)) = false := by
        rw [inArray_number (by omega) valid.array_small]
        simp
      by_contra absurd
      have found : present h t (t.array.length + 1) = true := by simpa using absurd
      obtain ⟨v,value⟩ := Option.isSome_iff_exists.mp found
      rw [get_outside outside,valid.sound.lookup_iff] at value
      obtain ⟨i,key,-⟩ := value
      rw [valid.spare dummy] at key
      cases key
    · unfold unboundSearch
      cases searched : double (present h t) 32 t.array.length (t.array.length + 1) with
      | some ends =>
        obtain ⟨i,j⟩ := ends
        obtain ⟨low,high,less,small⟩ := double_edge low (by omega) (by omega) searched
        have := binary_edge j low high less (by omega)
        exact ⟨this.1,this.2.trans_le small⟩
      | none =>
        obtain ⟨m,positive,bound,missing⟩ := missing_slot valid few
        have total := entries_le (h := h) t
        obtain ⟨edge,below⟩ := linear_edge (t.array.length + (nodeEntries t).length + 1)
          (.inl rfl) missing positive (by omega)
        have power : MAXASIZE = 2 ^ MAXBITS := rfl
        exact ⟨edge,below.trans (by omega)⟩

/-- After any run of stores the length is a border of what is stored. -/
theorem length_border (h : Hashing K) (stores : List (Store K V))
    (few : (stores.map Prod.fst).dedup.length < 2 ^ MAXBITS)
    (ran : run (step h) new stores = some t) :
    (getn h t = 0 ∨ latest (fun _ => none) stores (h.number (getn h t)) ≠ none) ∧
      latest (fun _ => none) stores (h.number (getn h t + 1)) = none := by
  obtain ⟨t',ran',valid,read,fewer⟩ := run_valid (h := h) few
  obtain rfl : t' = t := Option.some.inj (ran'.symm.trans ran)
  have edge := (getn_edge valid fewer).1
  rw [← read,← read]
  refine ⟨edge.last.imp_right fun here => ?_,?_⟩
  · exact Option.isSome_iff_ne_none.mp here
  · simpa [present] using edge.next

/-- A table with a hole. -/
theorem hole_border :
    ∃ t, run (step residues) new [(1, some "a"), (2, some "b"), (4, some "d")] = some t ∧
      (getn residues t = 0 ∨ latest (fun _ => none)
        [(1, some "a"), (2, some "b"), (4, some "d")] (residues.number (getn residues t)) ≠ none) ∧
      latest (fun _ => none) [(1, some "a"), (2, some "b"), (4, some "d")]
        (residues.number (getn residues t + 1)) = none := by
  have few : (([(1, some "a"), (2, some "b"), (4, some "d")] :
      List (Store Int String)).map Prod.fst).dedup.length < 2 ^ MAXBITS := by decide
  obtain ⟨t,ran,-⟩ := run_valid (h := residues) few
  exact ⟨t,ran,length_border residues _ few ran⟩

end LuaKernel.LuaTables
