import LuaKernel.HashCollisions

/-! The hash table as a map from keys to values, with room for as many keys as there are cells. -/
namespace LuaKernel.HashChains

variable {K V : Type} {main : K → Nat} {size : Nat} {s : Cells K V} {k : K}

def Stored (s : Cells K V) (k : K) (v : V) : Prop :=
  ∃ i, (s.cell i).key = some k ∧ (s.cell i).val = some v

def lookup [DecidableEq K] (main : K → Nat) (size : Nat) (s : Cells K V) (k : K) : Option V :=
  (find s.cell k size (some (main k))).bind fun i => (s.cell i).val

def assign (p : Nat) (v : Option V) (s : Cells K V) : Cells K V :=
  { s with cell := Function.update s.cell p { s.cell p with val := v } }

theorem Sound.lookup_iff [DecidableEq K] (sound : Sound main size s) (k : K) (v : V) :
    lookup main size s k = some v ↔ Stored s k v := by
  simp only [lookup,Option.bind_eq_some_iff,sound.find_iff,Stored]

theorem assign_key (p : Nat) (v : Option V) (s : Cells K V) (i : Nat) :
    ((assign p v s).cell i).key = (s.cell i).key := by
  simp only [assign,Function.update_apply]
  split_ifs with here
  · rw [here]
  · rfl

theorem assign_next (p : Nat) (v : Option V) (s : Cells K V) (i : Nat) :
    ((assign p v s).cell i).next = (s.cell i).next := by
  simp only [assign,Function.update_apply]
  split_ifs with here
  · rw [here]
  · rfl

theorem assign_val (p : Nat) (v : Option V) (s : Cells K V) (i : Nat) :
    ((assign p v s).cell i).val = if i = p then v else (s.cell i).val := by
  simp only [assign,Function.update_apply]
  split_ifs <;> rfl

theorem assign_chain (p : Nat) (v : Option V) (s : Cells K V) :
    Chain (assign p v s).cell o l ↔ Chain s.cell o l :=
  ⟨fun chain => chain.congr fun i _ => (assign_next p v s i).symm,
    fun chain => chain.congr fun i _ => assign_next p v s i⟩

theorem Sound.assign (sound : Sound main size s) (key : (s.cell p).key ≠ none) (v : Option V) :
    Sound main size (HashChains.assign p v s) where
  places := sound.places
  blank {i} none := by
    rw [assign_key] at none
    have other : i ≠ p := fun same => key (same ▸ none)
    rw [assign_val,assign_next,if_neg other]
    exact sound.blank none
  inside {i k} key := sound.inside ((assign_key p v s i).symm.trans key)
  ends i := by
    obtain ⟨l,chain⟩ := sound.ends i
    exact ⟨l,(assign_chain p v s).mpr chain⟩
  target {i j} next := by
    rw [assign_key]
    exact sound.target ((assign_next p v s i).symm.trans next)
  once {i j n} first second :=
    sound.once ((assign_next p v s i).symm.trans first) ((assign_next p v s j).symm.trans second)
  reach {i k l} key chain :=
    sound.reach ((assign_key p v s i).symm.trans key) ((assign_chain p v s).mp chain)
  home {i k} key := by
    obtain ⟨k',key',same⟩ := sound.home ((assign_key p v s i).symm.trans key)
    exact ⟨k',by rw [assign_key,key'],same⟩
  unique {i j k} first second :=
    sound.unique ((assign_key p v s i).symm.trans first) ((assign_key p v s j).symm.trans second)
  limit := sound.limit
  free {i} above inside := by
    rw [assign_key]
    exact sound.free above inside

theorem Sound.stored_assign [DecidableEq K] (sound : Sound main size s)
    (key : (s.cell p).key = some k) (v : Option V) (k' : K) (w : V) :
    Stored (HashChains.assign p v s) k' w ↔
      if k' = k then v = some w else Stored s k' w := by
  simp only [Stored,assign_key,assign_val]
  split_ifs with same
  · subst same
    constructor
    · rintro ⟨i,key',val⟩
      rwa [if_pos (sound.unique key' key)] at val
    · intro given
      exact ⟨p,key,by rw [if_pos rfl,given]⟩
  · have apart : ∀ i, (s.cell i).key = some k' → i ≠ p := by
      rintro i key' rfl
      rw [key] at key'
      exact same (Option.some.inj key').symm
    refine exists_congr fun i => and_congr_right fun key' => ?_
    rw [if_neg (apart i key')]

structure Inserted (main : K → Nat) (size : Nat) (s : Cells K V) (k : K) (p : Nat)
    (s' : Cells K V) : Prop where
  sound : Sound main size s'
  key : (s'.cell p).key = some k
  others : ∀ k' v, k' ≠ k → (Stored s' k' v ↔ Stored s k' v)
  one : ∃ q, ∀ i, i ≠ q → (s'.cell i).key.isSome → (s.cell i).key.isSome
  keys : ∀ {i k'}, (s'.cell i).key = some k' → k' = k ∨ ∃ j, (s.cell j).key = some k'

/-- A cell without a value is given the key, and no other changes its key or a value. -/
theorem inserted_at {p : Nat} {s' : Cells K V} (sound : Sound main size s')
    (clear : (s.cell p).val = none)
    (keys : ∀ i, (s'.cell i).key = if i = p then some k else (s.cell i).key)
    (vals : ∀ i, (s'.cell i).val = (s.cell i).val) : Inserted main size s k p s' := by
  refine ⟨sound,by simp [keys],?_,⟨p,?_⟩,?_⟩
  · intro k' v other
    simp only [Stored,keys,vals]
    refine exists_congr fun i => ?_
    split_ifs with here
    · rw [here,clear]
      simp
    · rfl
  · intro i other some_
    simpa [keys,other] using some_
  · intro i k' key'
    rw [keys] at key'
    split_ifs at key' with here
    · exact .inl (Option.some.inj key').symm
    · exact .inr ⟨i,key'⟩

theorem Displacement.inserted {owner : K} (move : Displacement main size s k n owner prev) :
    Inserted main size s k (main k) ⟨displace prev (main k) n k s.cell, n⟩ := by
  refine ⟨move.displace_sound,by simp [displace_main],?_,⟨n,?_⟩,?_⟩
  · intro k' v differ
    constructor
    · rintro ⟨i,key,val⟩
      rcases move.key key with ⟨-,same⟩ | ⟨j,old,rfl,before⟩
      · exact absurd same differ
      · simp only [move.at_moved old] at val
        exact ⟨j,before,val⟩
    · rintro ⟨i,key,val⟩
      have old : i ≠ n := by
        rintro rfl
        rw [move.free.key] at key
        cases key
      exact ⟨moved (main k) n i,by simp [move.at_moved old,key],by simp [move.at_moved old,val]⟩
  · intro i here some_
    obtain ⟨k',key⟩ := Option.isSome_iff_exists.mp some_
    rcases move.key key with ⟨rfl,-⟩ | ⟨j,-,rfl,before⟩
    · simp [move.taken]
    · have still : j ≠ main k := fun same => here (by rw [same,moved,if_pos rfl])
      rw [moved,if_neg still,before]
      rfl
  · intro i k' key
    rcases move.key key with ⟨-,same⟩ | ⟨j,-,-,before⟩
    · exact .inl same
    · exact .inr ⟨j,before⟩

theorem insert_inserted (sound : Sound main size s) (absent : ∀ i, (s.cell i).key ≠ some k)
    (done : insert main size k s = some (p, s')) : Inserted main size s k p s' := by
  unfold insert at done
  dsimp only at done
  split at done
  · rename_i clear
    cases done
    exact inserted_at (sound.rekey absent) (by simpa using clear) (rekey_key _ _ _)
      (rekey_val _ _ _)
  · obtain ⟨n,place,done⟩ := Option.bind_eq_some_iff.mp done
    obtain ⟨owner,key,done⟩ := Option.bind_eq_some_iff.mp done
    obtain ⟨below,free,last⟩ := freePlace_some place
    have collision : Collision main size s k n owner :=
      ⟨sound,absent,⟨free,below,fun {i} => last i⟩,key⟩
    split at done
    · rename_i home
      cases done
      exact inserted_at (collision.behind_sound home) (sound.blank free).1
        (behind_key collision.other _ _) (behind_val collision.other _ _)
    · rename_i away
      obtain ⟨prev,before,done⟩ := Option.bind_eq_some_iff.mp done
      cases done
      obtain ⟨l,chain⟩ := sound.ends (main owner)
      obtain ⟨prev',-,link,found⟩ := previous_chain chain (sound.reach key chain) away
        (sound.length (sound.places owner) chain)
      obtain rfl : prev' = prev := Option.some.inj (found.symm.trans before)
      exact Displacement.inserted ⟨collision,away,link⟩

def used (size : Nat) (s : Cells K V) : Nat :=
  (List.range size).countP fun i => (s.cell i).key.isSome

theorem countP_le_succ {p q : Nat → Bool} {l : List Nat} (nodup : l.Nodup)
    (but : ∀ i, i ≠ j → q i = true → p i = true) : l.countP q ≤ l.countP p + 1 := by
  induction l with
  | nil => simp
  | cons i l ih =>
    obtain ⟨new,nodup⟩ := List.nodup_cons.mp nodup
    rw [List.countP_cons,List.countP_cons]
    by_cases here : i = j
    · have rest : l.countP q ≤ l.countP p :=
        List.countP_mono_left fun m member holds =>
          but m (fun same => new (here ▸ same ▸ member)) holds
      split_ifs <;> omega
    · have rest := ih nodup
      by_cases holds : q i = true
      · simp only [holds,but i here holds,if_true]
        omega
      · rw [if_neg holds]
        omega

theorem Inserted.used_le (done : Inserted main size s k p s') : used size s' ≤ used size s + 1 := by
  obtain ⟨q,but⟩ := done.one
  exact countP_le_succ List.nodup_range but

/-- While fewer keys than cells are used there is a place for another. -/
theorem insert_room (sound : Sound main size s) (room : used size s < size) (k : K) :
    ∃ p s', insert main size k s = some (p, s') := by
  unfold insert
  dsimp only
  split
  · exact ⟨_,_,rfl⟩
  · rename_i taken
    obtain ⟨i,inside,free⟩ : ∃ i, i < size ∧ (s.cell i).key = none := by
      by_contra none
      push Not at none
      have full : used size s = size := by
        have all := (List.countP_eq_length (p := fun i => (s.cell i).key.isSome)
          (l := List.range size)).mpr fun i member =>
            Option.isSome_iff_ne_none.mpr (none i (List.mem_range.mp member))
        simpa [used] using all
      omega
    cases place : freePlace s.cell s.lastfree with
    | none =>
      by_cases old : s.lastfree ≤ i
      · exact absurd free (sound.free old inside)
      · exact absurd free (freePlace_none place (by omega))
    | some n =>
      cases key : (s.cell (main k)).key with
      | none =>
        have clear := (sound.blank key).1
        simp [clear] at taken
      | some owner =>
        by_cases home : main owner = main k
        · exact ⟨_,_,by simp [home]; exact ⟨rfl,rfl⟩⟩
        · obtain ⟨l,chain⟩ := sound.ends (main owner)
          obtain ⟨prev,-,-,found⟩ := previous_chain chain (sound.reach key chain) home
            (sound.length (sound.places owner) chain)
          exact ⟨_,_,by simp [home,found]; exact ⟨rfl,rfl⟩⟩

end LuaKernel.HashChains
