import Mathlib.Algebra.BigOperators.Group.Finset.Basic
import Mathlib.Algebra.Order.BigOperators.Group.Finset
import LuaKernel.LuaTablesResize

/-! A rehash counts the integer keys by the logarithm of their size and chooses the array part
that takes most of them while more than half of its slots are used. The hash part gets a node for
each of the other keys, so that the insertions of the resize, and that of the new key behind it,
call for no rehash again. -/
namespace LuaKernel.LuaTables

open HashChains

variable {K V : Type} {h : Hashing K} {t t' : Table K V} {nums : Nat → Nat}

def total (nums : Nat → Nat) (m : Nat) : Nat := ∑ j ∈ Finset.range (m + 1), nums j

def within (h : Hashing K) (n : Nat) (keys : List K) : Nat := keys.countP (inArray h n)

theorem total_zero (nums : Nat → Nat) : total nums 0 = nums 0 := by simp [total]

theorem total_succ (nums : Nat → Nat) (m : Nat) :
    total nums (m + 1) = total nums m + nums (m + 1) :=
  Finset.sum_range_succ nums (m + 1)

theorem total_mono (nums : Nat → Nat) (le : m ≤ n) : total nums m ≤ total nums n := by
  induction n, le using Nat.le_induction with
  | base => exact Nat.le_refl _
  | succ n _ ih => rw [total_succ]; omega

theorem total_update (nums : Nat → Nat) (lg c m : Nat) :
    total (Function.update nums lg (nums lg + c)) m = total nums m + if lg ≤ m then c else 0 := by
  induction m with
  | zero =>
    rw [total_zero,total_zero,Function.update_apply]
    by_cases zero : lg = 0
    · simp [zero]
    · simp [zero,Ne.symm zero]
  | succ m ih =>
    rw [total_succ,total_succ,ih,Function.update_apply]
    by_cases here : m + 1 = lg
    · subst here
      simp
      omega
    · rw [if_neg here]
      by_cases below : lg ≤ m
      · simp [below,Nat.le_succ_of_le below]
        omega
      · rw [if_neg below,if_neg (by omega)]
        omega

theorem within_add_needs (n : Nat) (keys : List K) :
    within h n keys + needs h n keys = keys.length := by
  rw [within,needs,List.length_eq_countP_add_countP (inArray h n)]
  simp

theorem countint_total (k : K) (nums : Nat → Nat) (small : m ≤ MAXBITS) :
    total (countint h k nums).2 m = total nums m + within h (2 ^ m) [k] := by
  have power : 2 ^ m ≤ MAXASIZE := Nat.pow_le_pow_right (by omega) small
  unfold countint
  split
  · rename_i inside
    obtain ⟨i,index,-⟩ := inArray_iff.mp inside
    dsimp only
    rw [total_update]
    simp [within,inArray,index,ceillog2_le,List.countP_cons]
  · rename_i outside
    have beyond : inArray h (2 ^ m) k = false := by
      by_contra inside
      exact outside (inArray_mono (by simpa using inside) power)
    simp [within,beyond]

theorem countint_count (k : K) (nums : Nat → Nat) :
    (countint h k nums).1 = within h MAXASIZE [k] := by
  unfold countint
  split
  · rename_i inside
    simp [within,inside]
  · rename_i outside
    simp [within,outside]

theorem within_cons (n : Nat) (k : K) (keys : List K) :
    within h n (k :: keys) = within h n [k] + within h n keys := by
  simp only [within,List.countP_cons,List.countP_nil]
  omega

theorem within_append (n : Nat) (keys keys' : List K) :
    within h n (keys ++ keys') = within h n keys + within h n keys' := List.countP_append ..

theorem numusehash_counts (values : List (K × V)) (totaluse ause : Nat) (nums : Nat → Nat) :
    (numusehash h values (totaluse, ause, nums)).1 = totaluse + values.length ∧
    (numusehash h values (totaluse, ause, nums)).2.1 =
      ause + within h MAXASIZE (values.map Prod.fst) ∧
    ∀ m ≤ MAXBITS, total (numusehash h values (totaluse, ause, nums)).2.2 m =
      total nums m + within h (2 ^ m) (values.map Prod.fst) := by
  induction values generalizing totaluse ause nums with
  | nil => simp [numusehash,within]
  | cons entry rest ih =>
    obtain ⟨k,v⟩ := entry
    obtain ⟨all,integers,counts⟩ := ih (totaluse + 1) (ause + (countint h k nums).1)
      (countint h k nums).2
    simp only [numusehash,List.map_cons]
    refine ⟨by rw [all,List.length_cons]; omega,?_,fun m small => ?_⟩
    · rw [integers,countint_count,within_cons _ k (rest.map Prod.fst)]
      omega
    · rw [counts m small,countint_total k nums small,within_cons _ k (rest.map Prod.fst)]
      omega

/-- The slices of the array part make up its beginning. -/
theorem lgSlice_total (array : List (Option V)) (m : Nat) :
    total (fun lg => (lgSlice array lg).countP Option.isSome) m =
      (array.take (2 ^ m)).countP Option.isSome := by
  induction m with
  | zero => simp [total_zero,lgSlice]
  | succ m ih =>
    have power : 2 ^ m ≤ 2 ^ (m + 1) := Nat.pow_le_pow_right (by omega) (by omega)
    have first : array.take (2 ^ m) = (array.take (2 ^ (m + 1))).take (2 ^ m) := by
      rw [List.take_take,Nat.min_eq_left power]
    rw [total_succ,ih,first,lgSlice,if_neg (by omega),Nat.add_sub_cancel,← List.countP_append,
      List.take_append_drop]

theorem numusearray_fold (array : List (Option V)) (n : Nat) :
    (List.range n).foldl (fun ((ause, nums) : Nat × (Nat → Nat)) lg =>
      (ause + (lgSlice array lg).countP Option.isSome,
        Function.update nums lg (nums lg + (lgSlice array lg).countP Option.isSome)))
      (0, fun _ => 0) =
    (∑ lg ∈ Finset.range n, (lgSlice array lg).countP Option.isSome,
      fun lg => if lg < n then (lgSlice array lg).countP Option.isSome else 0) := by
  induction n with
  | zero => simp
  | succ n ih =>
    rw [List.range_succ,List.foldl_append,ih,Finset.sum_range_succ]
    simp only [List.foldl_cons,List.foldl_nil,Prod.mk.injEq,true_and]
    funext lg
    rw [Function.update_apply]
    by_cases here : lg = n
    · simp [here]
    · rw [if_neg here]
      by_cases below : lg < n
      · rw [if_pos below,if_pos (by omega)]
      · rw [if_neg below,if_neg (by omega)]

theorem numusearray_counts (array : List (Option V)) (bound : array.length ≤ MAXASIZE) :
    (numusearray array fun _ => 0).1 = array.countP Option.isSome ∧
    ∀ m ≤ MAXBITS, total (numusearray array fun _ => 0).2 m =
      (array.take (2 ^ m)).countP Option.isSome := by
  have counts := numusearray_fold array (MAXBITS + 1)
  simp only [numusearray]
  rw [counts]
  refine ⟨?_,fun m small => ?_⟩
  · have all := lgSlice_total array MAXBITS
    rwa [List.take_of_length_le (by simpa [MAXASIZE] using bound)] at all
  · rw [← lgSlice_total]
    refine Finset.sum_congr rfl fun lg below => ?_
    rw [Finset.mem_range] at below
    exact if_pos (by omega)

theorem slice_length (i : Nat) (l : List (Option V)) :
    (slice h i l).length = l.countP Option.isSome := by
  induction l generalizing i with
  | nil => rfl
  | cons o l ih => cases o <;> simp [slice,ih]

theorem slice_within (i n : Nat) (l : List (Option V)) (small : i + l.length < 2 ^ 31) :
    within h n ((slice h i l).map Prod.fst) = (l.take (n - i)).countP Option.isSome := by
  induction l generalizing i with
  | nil => simp [slice,within]
  | cons o l ih =>
    rw [List.length_cons] at small
    have rest := ih (i + 1) (by omega)
    have key : within h n [h.number (i + 1)] = if i + 1 ≤ n then 1 else 0 := by
      simp [within,inArray_number (Nat.succ_pos i) (by omega),List.countP_cons]
    by_cases inside : i + 1 ≤ n
    · obtain ⟨r,rfl⟩ := Nat.exists_eq_add_of_le inside
      have sub : i + 1 + r - i = r + 1 := by omega
      rw [Nat.add_sub_cancel_left] at rest
      rw [sub,List.take_succ_cons]
      cases o with
      | none => simpa [slice] using rest
      | some v =>
        rw [slice,List.map_cons,within_cons,key,if_pos inside,rest]
        simp [Nat.add_comm]
    · have none : n - i = 0 := by omega
      have later : n - (i + 1) = 0 := by omega
      rw [later] at rest
      rw [none]
      cases o with
      | none => simpa [slice] using rest
      | some v =>
        rw [slice,List.map_cons,within_cons,key,if_neg inside,rest]
        simp

theorem slice_append (i : Nat) (l m : List (Option V)) :
    slice h i (l ++ m) = slice h i l ++ slice h (i + l.length) m := by
  induction l generalizing i with
  | nil => rfl
  | cons o l ih =>
    have next : i + (l.length + 1) = i + 1 + l.length := by omega
    cases o <;> simp [slice,ih,next]

structure Best (nums : Nat → Nat) (n na : Nat) : Prop where
  size : (n = 0 ∧ na = 0) ∨ ∃ m ≤ MAXBITS, n = 2 ^ m ∧ na = total nums m ∧ n / 2 < na
  most : ∀ m ≤ MAXBITS, 2 ^ m / 2 < total nums m → total nums m ≤ na

theorem sizesLoop_best (narray : Nat) (counted : ∀ m ≤ MAXBITS, total nums m ≤ narray)
    (steps : i + fuel = MAXBITS + 1) (sum : a = ∑ j ∈ Finset.range i, nums j)
    (size : (n = 0 ∧ na = 0) ∨ ∃ m ≤ MAXBITS, n = 2 ^ m ∧ na = total nums m ∧ n / 2 < na)
    (most : ∀ m < i, 2 ^ m / 2 < total nums m → total nums m ≤ na) :
    Best nums (sizesLoop nums narray fuel i a na n).1 (sizesLoop nums narray fuel i a na n).2 := by
  induction fuel generalizing i a na n with
  | zero => exact ⟨size,fun m small => most m (by omega)⟩
  | succ fuel ih =>
    unfold sizesLoop
    have half : ∀ {m}, i ≤ m → 2 ^ i / 2 ≤ 2 ^ m / 2 := fun le =>
      Nat.div_le_div_right (Nat.pow_le_pow_right (by omega) le)
    split
    · have now : a + nums i = total nums i := by
        rw [sum,total,Finset.sum_range_succ]
      dsimp only
      rw [now]
      have empty : nums i = 0 → 2 ^ i / 2 < total nums i → total nums i ≤ na := by
        intro zero large
        cases i with
        | zero => rw [total_zero,zero]; omega
        | succ i =>
          rw [total_succ,zero,Nat.add_zero] at large ⊢
          refine most i (by omega) (Nat.lt_of_le_of_lt ?_ large)
          exact Nat.div_le_div_right (Nat.pow_le_pow_right (by omega) (by omega))
      obtain ⟨n',na',chosen,size',most'⟩ : ∃ n' na',
          (if nums i > 0 ∧ total nums i > 2 ^ i / 2 then (total nums i, 2 ^ i) else (na, n)) =
            (na', n') ∧
          ((n' = 0 ∧ na' = 0) ∨
            ∃ m ≤ MAXBITS, n' = 2 ^ m ∧ na' = total nums m ∧ n' / 2 < na') ∧
          ∀ m < i + 1, 2 ^ m / 2 < total nums m → total nums m ≤ na' := by
        split
        · rename_i better
          refine ⟨_,_,rfl,.inr ⟨i,by omega,rfl,rfl,better.2⟩,fun m le _ => ?_⟩
          exact total_mono nums (by omega)
        · rename_i worse
          refine ⟨_,_,rfl,size,fun m le large => ?_⟩
          by_cases here : m = i
          · subst here
            exact empty (by omega) large
          · exact most m (by omega) large
      rw [chosen]
      dsimp only
      split
      · rename_i all
        refine ⟨size',fun m small large => ?_⟩
        by_cases seen : m < i + 1
        · exact most' m seen large
        · have same : total nums m = total nums i :=
            Nat.le_antisymm (all ▸ counted m small) (total_mono nums (by omega))
          rw [same] at large ⊢
          exact most' i (by omega) (Nat.lt_of_le_of_lt (half (by omega)) large)
      · exact ih (by omega) (by rw [Finset.sum_range_succ,← sum,now]) size' most'
    · rename_i beyond
      refine ⟨size,fun m small large => ?_⟩
      by_cases seen : m < i
      · exact most m seen large
      · have := counted m small
        have := half (Nat.le_of_not_lt seen)
        omega

theorem computesizes_best (nums : Nat → Nat) (narray : Nat)
    (counted : ∀ m ≤ MAXBITS, total nums m ≤ narray) :
    Best nums (computesizes nums narray).1 (computesizes nums narray).2 :=
  sizesLoop_best narray counted (Nat.zero_add _) rfl (.inl ⟨rfl,rfl⟩) nofun

variable [DecidableEq K]

def keysWith (h : Hashing K) (t : Table K V) (ek : K) : List K :=
  (entries h t).map Prod.fst ++ [ek]

/-- What a rehash chooses: an array part that is more than half used, if there is one, and that
takes most keys. -/
structure Chosen (h : Hashing K) (keys : List K) (n : Nat) : Prop where
  size : n = 0 ∨ ∃ m ≤ MAXBITS, n = 2 ^ m ∧ n / 2 < within h n keys
  most : ∀ m ≤ MAXBITS, 2 ^ m / 2 < within h (2 ^ m) keys → within h (2 ^ m) keys ≤ within h n keys

omit [DecidableEq K] in
theorem within_zero (keys : List K) : within h 0 keys = 0 := by
  simp [within,inArray_zero]

omit [DecidableEq K] in
/-- There is a node for each key outside the new array part. -/
theorem needs_moved (nasize : Nat) (ek : K) :
    needs h nasize ((slice h nasize (t.array.drop nasize) ++ nodeEntries t).map Prod.fst) +
      need h nasize ek ≤ needs h nasize (keysWith h t ek) := by
  have split : slice h 0 t.array =
      slice h 0 (t.array.take nasize) ++ slice h (t.array.take nasize).length
        (t.array.drop nasize) := by
    conv_lhs => rw [← List.take_append_drop nasize t.array]
    rw [slice_append,Nat.zero_add]
  have part : slice h nasize (t.array.drop nasize) =
      slice h (t.array.take nasize).length (t.array.drop nasize) := by
    by_cases le : nasize ≤ t.array.length
    · rw [List.length_take,Nat.min_eq_left le]
    · rw [List.drop_eq_nil_of_le (by omega)]
      rfl
  rw [keysWith,entries,split,part,needs,needs]
  simp only [List.map_append,List.countP_append,List.countP_cons,List.countP_nil,need]
  cases inArray h nasize ek <;> simp

theorem rehash_resized (valid : Valid h t) (ek : K) (few : (entries h t).length < 2 ^ MAXBITS) :
    ∃ t' nasize, rehash h t ek = some t' ∧ Resized h t nasize (need h nasize ek) t' ∧
      Chosen h (keysWith h t ek) nasize := by
  obtain ⟨ause,arrayNums⟩ := numusearray_counts t.array valid.size
  obtain ⟨totaluse,hashed,hashNums⟩ := numusehash_counts (h := h) (nodeEntries t) 0 0
    (numusearray t.array fun _ => 0).2
  unfold rehash
  generalize numusearray t.array (fun _ => 0) = first at *
  obtain ⟨first,nums⟩ := first
  dsimp only at *
  generalize numusehash h (nodeEntries t) (0, 0, nums) = second at *
  obtain ⟨all,integers,nums'⟩ := second
  dsimp only at *
  have extra := countint_count (h := h) ek nums'
  have extraNums := fun m small => countint_total (h := h) (m := m) ek nums' small
  generalize countint h ek nums' = third at *
  obtain ⟨c,nums''⟩ := third
  dsimp only at *
  have array := valid.array_small
  have length : (keysWith h t ek).length = first + all + 1 := by
    simp [keysWith,entries,slice_length,ause,totaluse,Nat.add_assoc]
  have counted : ∀ m ≤ MAXBITS, total nums'' m = within h (2 ^ m) (keysWith h t ek) := by
    intro m small
    rw [extraNums m small,hashNums m small,arrayNums m small,keysWith,entries,List.map_append,
      within_append,within_append,slice_within 0 _ _ (by omega),Nat.sub_zero]
  have integral : ∀ m ≤ MAXBITS, total nums'' m ≤ first + integers + c := by
    intro m small
    have power : 2 ^ m ≤ MAXASIZE := Nat.pow_le_pow_right (by omega) small
    have mono : ∀ keys : List K, within h (2 ^ m) keys ≤ within h MAXASIZE keys := fun keys =>
      List.countP_mono_left fun k _ inside => inArray_mono inside power
    rw [extraNums m small,hashNums m small,arrayNums m small,ause,hashed,extra]
    have := mono [ek]
    have := mono ((nodeEntries t).map Prod.fst)
    have := (List.take_sublist (2 ^ m) t.array).countP_le (p := Option.isSome)
    omega
  have best := computesizes_best nums'' (first + integers + c) integral
  generalize computesizes nums'' (first + integers + c) = sizes at *
  obtain ⟨nasize,na⟩ := sizes
  dsimp only at *
  have taken : na = within h nasize (keysWith h t ek) ∧ nasize ≤ MAXASIZE := by
    rcases best.size with ⟨rfl,rfl⟩ | ⟨m,small,rfl,rfl,-⟩
    · exact ⟨(within_zero _).symm,Nat.zero_le _⟩
    · exact ⟨counted m small,Nat.pow_le_pow_right (by omega) small⟩
  have partition := within_add_needs (h := h) nasize (keysWith h t ek)
  have moved := needs_moved (h := h) (t := t) nasize ek
  have small : (keysWith h t ek).length ≤ 2 ^ MAXBITS := by
    simp only [keysWith,List.length_append,List.length_map,List.length_singleton]
    omega
  obtain ⟨t',done,resized⟩ := resize_resized valid taken.2 (first + all + 1 - na)
    (by omega) (by omega : _ + need h nasize ek ≤ _)
  refine ⟨t',nasize,done,resized,?_,fun m small large => ?_⟩
  · rcases best.size with ⟨zero,-⟩ | ⟨m,small,power,-,half⟩
    · exact .inl zero
    · exact .inr ⟨m,small,power,taken.1 ▸ half⟩
  · rw [← counted m small] at large ⊢
    rw [← taken.1]
    exact best.most m small large

end LuaKernel.LuaTables
