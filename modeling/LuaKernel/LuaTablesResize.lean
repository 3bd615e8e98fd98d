import LuaKernel.LuaTablesPlaces

/-! A resize inserts again what does not stay in the array part. It keeps every value, and it
finds a place for all of them if there are nodes for the keys outside the new array part. -/
namespace LuaKernel.LuaTables

open HashChains

variable {K V : Type} {h : Hashing K} {t t' : Table K V}

theorem ceillog2_le : ceillog2 x ≤ m ↔ x ≤ 2 ^ m := by
  have := Nat.two_pow_pos m
  rw [ceillog2,Nat.size_le]
  omega

def entries (h : Hashing K) (t : Table K V) : List (K × V) := slice h 0 t.array ++ nodeEntries t

theorem mem_slice {l : List (Option V)} :
    (k, v) ∈ slice h i l ↔ ∃ j, l[j]? = some (some v) ∧ k = h.number (i + j + 1) := by
  induction l generalizing i with
  | nil => simp [slice]
  | cons o l ih =>
    have later : (∃ j, (o :: l)[j]? = some (some v) ∧ k = h.number (i + j + 1)) ↔
        (o = some v ∧ k = h.number (i + 1)) ∨ (k, v) ∈ slice h (i + 1) l := by
      rw [ih]
      constructor
      · rintro ⟨j,here,rfl⟩
        cases j with
        | zero => exact .inl ⟨by simpa using here,rfl⟩
        | succ j => exact .inr ⟨j,by simpa using here,by congr 1; omega⟩
      · rintro (⟨rfl,rfl⟩ | ⟨j,here,rfl⟩)
        · exact ⟨0,rfl,rfl⟩
        · exact ⟨j + 1,by simpa using here,by congr 1; omega⟩
    rw [later]
    cases o with
    | none => simp [slice]
    | some w =>
      simp only [slice,List.mem_cons,Prod.mk.injEq,Option.some.injEq]
      grind

theorem nodeEntry_iff {c : Cell K V} :
    nodeEntry c = some (k, v) ↔ c.key = some k ∧ c.val = some v := by
  rcases c with ⟨_ | k',_ | v',next⟩ <;> simp [nodeEntry]

variable [DecidableEq K]

theorem mem_slice_drop (valid : Valid h t) (n : Nat) :
    (k, v) ∈ slice h n (t.array.drop n) ↔
      inArray h t.array.length k = true ∧ inArray h n k = false ∧ get h t k = some v := by
  have size := valid.array_small
  rw [mem_slice]
  constructor
  · rintro ⟨j,here,rfl⟩
    rw [List.getElem?_drop] at here
    obtain ⟨bound,value⟩ := List.getElem?_eq_some_iff.mp here
    have inside : inArray h t.array.length (h.number (n + j + 1)) = true := by
      rw [inArray_number (by omega) (by omega)]
      exact decide_eq_true (by omega)
    refine ⟨inside,?_,?_⟩
    · rw [inArray_number (by omega) (by omega)]
      exact decide_eq_false (by omega)
    · rw [get_inside inside,position,h.index_number (by omega) (by omega)]
      simp [here]
  · rintro ⟨inside,outside,value⟩
    obtain ⟨bound,number⟩ := inArray_position inside
    have above : n ≤ position h k := by
      by_contra below
      rw [← number,inArray_number (by omega) (by omega)] at outside
      have := of_decide_eq_false outside
      omega
    refine ⟨position h k - n,?_,?_⟩
    · rw [get_inside inside] at value
      rw [List.getElem?_drop,Nat.add_sub_cancel' above,List.getElem?_eq_getElem bound]
      simpa [List.getElem?_eq_getElem bound] using value
    · rw [Nat.add_sub_cancel' above,number]

theorem mem_nodeEntries (valid : Valid h t) :
    (k, v) ∈ nodeEntries t ↔ inArray h t.array.length k = false ∧ get h t k = some v := by
  simp only [nodeEntries,List.mem_filterMap,List.mem_reverse,List.mem_range,nodeEntry_iff]
  constructor
  · rintro ⟨i,-,key,val⟩
    have outside := valid.outside key
    exact ⟨outside,by rw [get_outside outside,valid.sound.lookup_iff]; exact ⟨i,key,val⟩⟩
  · rintro ⟨outside,value⟩
    rw [get_outside outside,valid.sound.lookup_iff] at value
    obtain ⟨i,key,val⟩ := value
    exact ⟨i,valid.sound.inside key,key,val⟩

theorem mem_entries (valid : Valid h t) : (k, v) ∈ entries h t ↔ get h t k = some v := by
  have array := mem_slice_drop (k := k) (v := v) valid 0
  simp only [List.drop_zero,inArray_zero,true_and] at array
  rw [entries,List.mem_append,array,mem_nodeEntries valid]
  cases inArray h t.array.length k <;> simp

def needs (h : Hashing K) (size : Nat) (keys : List K) : Nat :=
  keys.countP fun k => !inArray h size k

omit [DecidableEq K] in
theorem needs_cons (size : Nat) (k : K) (keys : List K) :
    needs h size (k :: keys) = need h size k + needs h size keys := by
  simp only [needs,need,List.countP_cons]
  cases inArray h size k <;> simp [Nat.add_comm]

structure Filled (h : Hashing K) (t : Table K V) (values : List (K × V)) (t' : Table K V) :
    Prop where
  valid : Valid h t'
  get : ∀ k v, get h t' k = some v ↔ (k, v) ∈ values ∨ LuaTables.get h t k = some v
  array : t'.array.length = t.array.length

/-- Values that agree with what is stored are added to it. -/
theorem fill_filled (f : K → Option V) (valid : Valid h t)
    (room : Room t (needs h t.array.length (values.map Prod.fst) + spare))
    (stored : ∀ k v, get h t k = some v → f k = some v)
    (agree : ∀ k v, (k, v) ∈ values → f k = some v) :
    ∃ t', fill h t values = some t' ∧ Filled h t values t' ∧ Room t' spare := by
  induction values generalizing t with
  | nil =>
    simp only [List.map_nil,needs,List.countP_nil,Nat.zero_add] at room
    exact ⟨t,rfl,⟨valid,by simp,rfl⟩,room⟩
  | cons entry rest ih =>
    obtain ⟨k,v⟩ := entry
    rw [List.map_cons,needs_cons] at room
    dsimp only at room
    have nodes := room.nodes
    obtain ⟨t1,done⟩ := place_room (k := k) valid ⟨by omega,fun dummy => by
      have := room.real dummy
      omega⟩ (some v)
    have placed := place_placed valid done
    have room1 : Room t1 (needs h t1.array.length (rest.map Prod.fst) + spare) := by
      refine ⟨?_,fun dummy => ?_⟩
      · rw [placed.lsizenode,placed.array]
        have := placed.used
        omega
      · rw [placed.dummy] at dummy
        rw [placed.array]
        have := room.real dummy
        omega
    have here : f k = some v := agree k v (by simp)
    have stored1 : ∀ k' w, get h t1 k' = some w → f k' = some w := by
      intro k' w value
      rw [placed.get] at value
      split_ifs at value with same
      · rw [same,here,← value]
      · exact stored k' w value
    obtain ⟨t',filled,final,room'⟩ := ih placed.valid room1 stored1
      fun k' w member => agree k' w (List.mem_cons_of_mem _ member)
    refine ⟨t',by simp [fill,done,filled],⟨final.valid,?_,final.array.trans placed.array⟩,room'⟩
    intro k' w
    rw [final.get,placed.get,List.mem_cons,Prod.mk.injEq]
    split_ifs with same
    · subst same
      have both : get h t k' = some w → w = v := fun value =>
        Option.some.inj ((stored k' w value).symm.trans here)
      grind
    · simp [same]

theorem array_resized (array : List (Option V)) (nasize : Nat) :
    (if nasize > array.length then setarrayvector nasize array else array.take nasize).length =
        nasize ∧
      ∀ i < nasize, (if nasize > array.length then setarrayvector nasize array
        else array.take nasize).getD i none = array.getD i none := by
  split
  · refine ⟨by simp [setarrayvector]; omega,fun i bound => ?_⟩
    simp only [setarrayvector,List.getD_eq_getElem?_getD,List.getElem?_append]
    split
    · rfl
    · rw [List.getElem?_replicate,List.getElem?_eq_none (by omega)]
      split <;> rfl
  · refine ⟨by simp; omega,fun i bound => ?_⟩
    simp [List.getD_eq_getElem?_getD,bound]

omit [DecidableEq K] in
theorem used_blank (size n : Nat) : used size (blank n : Cells K V) = 0 := by
  simp [used,blank]

structure Fresh (h : Hashing K) (slots : List (Option V)) (n : Nat) (t : Table K V) : Prop where
  valid : Valid h t
  array : t.array = slots
  get : ∀ k, get h t k = if inArray h slots.length k then slots.getD (position h k) none else none
  room : Room t n

theorem setnodevector_fresh (t : Table K V) (bound : t.array.length ≤ MAXASIZE)
    (few : size ≤ 2 ^ MAXBITS) :
    ∃ t', setnodevector size t = some t' ∧ Fresh h t.array size t' := by
  have blanks : ∀ lsize dummy, (dummy = true → size = 0) → size ≤ 2 ^ lsize →
      Fresh h t.array size ⟨t.array,lsize,dummy,blank (2 ^ lsize)⟩ := by
    intro lsize dummy none fits
    have valid : Valid h (⟨t.array,lsize,dummy,blank (2 ^ lsize)⟩ : Table K V) :=
      ⟨sound_blank fun k => h.bound,fun key => by simp [blank] at key,fun _ _ => rfl,bound⟩
    refine ⟨valid,rfl,fun k => ?_,by simpa [used_blank] using fits,none⟩
    split
    · rename_i inside
      exact get_inside inside
    · rename_i outside
      rw [get_outside (by simpa using outside)]
      apply Option.ext
      intro v
      rw [valid.sound.lookup_iff]
      simp [Stored,blank]
  unfold setnodevector
  split
  · rename_i zero
    exact ⟨_,rfl,blanks 0 true (fun _ => zero) (by omega)⟩
  · dsimp only
    rw [if_neg (by have := ceillog2_le.mpr few; omega)]
    exact ⟨_,rfl,blanks _ false (by simp) (ceillog2_le.mp (Nat.le_refl _))⟩

structure Resized (h : Hashing K) (t : Table K V) (nasize spare : Nat) (t' : Table K V) :
    Prop where
  valid : Valid h t'
  get : ∀ k, get h t' k = LuaTables.get h t k
  array : t'.array.length = nasize
  room : Room t' spare

theorem resize_resized (valid : Valid h t) (bound : nasize ≤ MAXASIZE) (nhsize : Nat)
    (few : nhsize ≤ 2 ^ MAXBITS)
    (enough : needs h nasize
      ((slice h nasize (t.array.drop nasize) ++ nodeEntries t).map Prod.fst) + spare ≤ nhsize) :
    ∃ t', resize h t nasize nhsize = some t' ∧ Resized h t nasize spare t' := by
  obtain ⟨length,same⟩ := array_resized t.array nasize
  unfold resize
  generalize (if nasize > t.array.length then setarrayvector nasize t.array
    else t.array.take nasize) = array at length same ⊢
  obtain ⟨fresh,made,isFresh⟩ := setnodevector_fresh (h := h) { t with array := array }
    (by simpa [length] using bound) few
  have kept : ∀ k v, get h fresh k = some v ↔
      inArray h nasize k = true ∧ inArray h t.array.length k = true ∧ get h t k = some v := by
    intro k v
    rw [isFresh.get]
    simp only [length]
    by_cases inside : inArray h nasize k = true
    · obtain ⟨below,number⟩ := inArray_position inside
      rw [if_pos inside,same _ below]
      by_cases old : inArray h t.array.length k = true
      · simp [inside,old,get_inside old]
      · have beyond : t.array.length ≤ position h k := by
          by_contra under
          simp only [MAXASIZE,MAXBITS] at bound
          rw [← number,inArray_number (by omega) (by omega)] at old
          exact old (decide_eq_true (by omega))
        simp [old,List.getElem?_eq_none beyond]
    · simp [inside]
  have room : Room fresh (needs h fresh.array.length
      ((slice h nasize (t.array.drop nasize) ++ nodeEntries t).map Prod.fst) + spare) := by
    have total := isFresh.room
    rw [isFresh.array]
    simp only [length]
    exact ⟨by have := total.nodes; omega,fun dummy => by have := total.real dummy; omega⟩
  have moved : ∀ k v, (k, v) ∈ slice h nasize (t.array.drop nasize) ++ nodeEntries t →
      get h t k = some v := by
    intro k v member
    rcases List.mem_append.mp member with member | member
    · exact ((mem_slice_drop valid nasize).mp member).2.2
    · exact ((mem_nodeEntries valid).mp member).2
  obtain ⟨t',filled,final,spare⟩ := fill_filled (get h t) isFresh.valid room
    (fun k v value => ((kept k v).mp value).2.2) moved
  refine ⟨t',by simp [made,filled],final.valid,?_,?_,spare⟩
  · intro k
    apply Option.ext
    intro v
    rw [final.get,List.mem_append,mem_slice_drop valid,mem_nodeEntries valid,kept]
    cases inArray h nasize k <;> cases inArray h t.array.length k <;> simp
  · rw [final.array,isFresh.array]
    exact length

end LuaKernel.LuaTables
