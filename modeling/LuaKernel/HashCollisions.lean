import LuaKernel.HashChains

/-! A new key in the hash table. Its main position is taken over, or it goes to a free place behind
the key there, or that key is moved to the free place. Each keeps the table sound. -/
namespace LuaKernel.HashChains

variable {K V : Type} {cell : Nat → Cell K V} {main : K → Nat} {size : Nat}

theorem rekey_at (mp : Nat) (k : K) (cell : Nat → Cell K V) (i : Nat) :
    rekey mp k cell i = if i = mp then { cell mp with key := some k } else cell i :=
  Function.update_apply ..

@[simp] theorem rekey_next (mp : Nat) (k : K) (cell : Nat → Cell K V) (i : Nat) :
    (rekey mp k cell i).next = (cell i).next := by
  rw [rekey_at]
  split_ifs with here
  · rw [here]
  · rfl

@[simp] theorem rekey_val (mp : Nat) (k : K) (cell : Nat → Cell K V) (i : Nat) :
    (rekey mp k cell i).val = (cell i).val := by
  rw [rekey_at]
  split_ifs with here
  · rw [here]
  · rfl

theorem rekey_key (mp : Nat) (k : K) (cell : Nat → Cell K V) (i : Nat) :
    (rekey mp k cell i).key = if i = mp then some k else (cell i).key := by
  rw [rekey_at]
  split_ifs <;> rfl

variable {s : Cells K V} {k : K}

theorem rekey_chain (mp : Nat) (k : K) : Chain (rekey mp k cell) o l ↔ Chain cell o l :=
  ⟨fun chain => chain.congr fun i _ => (rekey_next mp k cell i).symm,
    fun chain => chain.congr fun i _ => rekey_next mp k cell i⟩

theorem Sound.rekey (sound : Sound main size s) (absent : ∀ i, (s.cell i).key ≠ some k) :
    Sound main size { s with cell := HashChains.rekey (main k) k s.cell } where
  places := sound.places
  blank {i} none := by
    simp only [rekey_key] at none
    split_ifs at none
    simpa using sound.blank none
  inside {i k'} key := by
    simp only [rekey_key] at key
    split_ifs at key with here
    · rw [here]
      exact sound.places k
    · exact sound.inside key
  ends i := by
    obtain ⟨l,chain⟩ := sound.ends i
    exact ⟨l,(rekey_chain _ _).mpr chain⟩
  target {i j} next := by
    simp only [rekey_next] at next
    simp only [rekey_key]
    split_ifs
    · simp
    · exact sound.target next
  once first second := by
    simp only [rekey_next] at first second
    exact sound.once first second
  reach {i k' l} key chain := by
    simp only [rekey_key] at key
    rw [rekey_chain] at chain
    split_ifs at key with here
    · cases key
      rw [here]
      cases chain
      simp
    · exact sound.reach key chain
  home {i k'} key := by
    simp only [rekey_key] at key ⊢
    split_ifs at key with here
    · cases key
      exact ⟨k,by simp,rfl⟩
    · split_ifs with same
      · exact ⟨k,rfl,same.symm⟩
      · exact sound.home key
  unique {i j k'} first second := by
    simp only [rekey_key] at first second
    split_ifs at first second with one two two
    · rw [one,two]
    · cases first
      exact absurd second (absent j)
    · cases second
      exact absurd first (absent i)
    · exact sound.unique first second
  limit := sound.limit
  free {i} above inside := by
    simp only [rekey_key]
    split_ifs
    · simp
    · exact sound.free above inside

theorem behind_at (other : n ≠ mp) (k : K) (cell : Nat → Cell K V) (i : Nat) :
    behind mp n k cell i = if i = mp then { cell mp with next := some n }
      else if i = n then ⟨some k, (cell n).val, (cell mp).next⟩ else cell i := by
  simp only [behind,Function.update_apply,if_neg other.symm]

theorem behind_key (other : n ≠ mp) (k : K) (cell : Nat → Cell K V) (i : Nat) :
    (behind mp n k cell i).key = if i = n then some k else (cell i).key := by
  rw [behind_at other]
  split_ifs with here free
  · exact absurd (free.symm.trans here) other
  · rw [here]
  · rfl
  · rfl

theorem behind_next (other : n ≠ mp) (k : K) (cell : Nat → Cell K V) (i : Nat) :
    (behind mp n k cell i).next =
      if i = mp then some n else if i = n then (cell mp).next else (cell i).next := by
  rw [behind_at other]
  split_ifs <;> rfl

theorem behind_val (other : n ≠ mp) (k : K) (cell : Nat → Cell K V) (i : Nat) :
    (behind mp n k cell i).val = (cell i).val := by
  rw [behind_at other]
  split_ifs with here free
  · rw [here]
  · rw [free]
  · rfl

theorem behind_chain (other : n ≠ mp) (k : K) (chain : Chain cell o l) (new : n ∉ l) :
    Chain (behind mp n k cell) o (l.flatMap fun i => if i = mp then [mp, n] else [i]) := by
  induction chain with
  | nil => exact .nil
  | @cons i l _ ih =>
    have rest := ih fun member => new (by simp [member])
    rw [List.flatMap_cons]
    by_cases here : i = mp
    · subst here
      rw [if_pos rfl]
      refine .cons ?_
      rw [behind_at other,if_pos rfl]
      refine .cons ?_
      rw [behind_at other,if_neg other,if_pos rfl]
      exact rest
    · have differ : i ≠ n := fun same => new (by simp [same])
      rw [if_neg here]
      refine .cons ?_
      rw [behind_at other,if_neg here,if_neg differ]
      exact rest

/-- The main position of a new key holds another, and there is a free place. -/
structure Collision (main : K → Nat) (size : Nat) (s : Cells K V) (k : K) (n : Nat) (owner : K) :
    Prop where
  sound : Sound main size s
  absent : ∀ i, (s.cell i).key ≠ some k
  free : Free s n
  taken : (s.cell (main k)).key = some owner

section Behind

variable {owner : K} (collision : Collision main size s k n owner)

include collision

theorem Collision.other : n ≠ main k := by
  rintro rfl
  have taken := collision.taken
  rw [collision.free.key] at taken
  cases taken

theorem Collision.below : n < size :=
  Nat.lt_of_lt_of_le collision.free.below collision.sound.limit

theorem Collision.behind_chains (differ : i ≠ n) (chain : Chain s.cell (some i) l) :
    Chain (behind (main k) n k s.cell) (some i)
      (l.flatMap fun i => if i = main k then [main k, n] else [i]) :=
  behind_chain collision.other k chain (collision.sound.fresh collision.free.key chain differ)

theorem Collision.behind_blank (none_ : (behind (main k) n k s.cell i).key = none) :
    (behind (main k) n k s.cell i).val = none ∧ (behind (main k) n k s.cell i).next = none := by
  rw [behind_key collision.other] at none_
  split_ifs at none_ with here
  have away : i ≠ main k := by
    rintro rfl
    rw [collision.taken] at none_
    cases none_
  rw [behind_val collision.other,behind_next collision.other,if_neg away,if_neg here]
  exact collision.sound.blank none_

theorem Collision.behind_ends (i : Nat) : ∃ l, Chain (behind (main k) n k s.cell) (some i) l := by
  by_cases here : i = n
  · obtain ⟨l,chain⟩ := collision.sound.ends (main k)
    have rest := collision.behind_chains collision.other.symm chain
    cases chain with
    | cons chain =>
      rw [List.flatMap_cons,if_pos rfl] at rest
      rw [here]
      exact ⟨_,rest.suffix (a := [main k])⟩
  · obtain ⟨l,chain⟩ := collision.sound.ends i
    exact ⟨_,collision.behind_chains here chain⟩

theorem Collision.behind_target (next : (behind (main k) n k s.cell i).next = some j) :
    (behind (main k) n k s.cell j).key ≠ none := by
  rw [behind_key collision.other]
  split_ifs with last
  · simp
  · rw [behind_next collision.other] at next
    split_ifs at next with first free
    · exact absurd (Option.some.inj next).symm last
    · exact collision.sound.target next
    · exact collision.sound.target next

/-- The new cell is linked once, and takes over the link of the one before it. -/
theorem Collision.behind_link (next : (behind (main k) n k s.cell i).next = some m) :
    (i = main k ∧ m = n) ∨ ∃ j, (s.cell j).next = some m ∧ (if j = main k then n else j) = i := by
  rw [behind_next collision.other] at next
  split_ifs at next with first second
  · exact Or.inl ⟨first,(Option.some.inj next).symm⟩
  · exact Or.inr ⟨main k,next,by rw [if_pos rfl,second]⟩
  · exact Or.inr ⟨i,next,if_neg first⟩

theorem Collision.behind_once (first : (behind (main k) n k s.cell i).next = some m)
    (second : (behind (main k) n k s.cell j).next = some m) : i = j := by
  have links := collision.sound.no_link collision.free
  rcases collision.behind_link first with ⟨here,rfl⟩ | ⟨a,next,rfl⟩ <;>
    rcases collision.behind_link second with ⟨there,new⟩ | ⟨b,next',rfl⟩
  · rw [here,there]
  · exact absurd next' (links b)
  · exact absurd (new ▸ next) (links a)
  · rw [collision.sound.once next next']

theorem Collision.behind_reach (key : (behind (main k) n k s.cell i).key = some k')
    (chain : Chain (behind (main k) n k s.cell) (some (main k')) l') : i ∈ l' := by
  rw [behind_key collision.other] at key
  split_ifs at key with here
  · cases key
    obtain ⟨l,old⟩ := collision.sound.ends (main k)
    have member : main k ∈ l := by cases old; simp
    rw [chain.unique (collision.behind_chains collision.other.symm old),here]
    exact List.mem_flatMap.mpr ⟨main k,member,by simp⟩
  · obtain ⟨l,old⟩ := collision.sound.ends (main k')
    rw [chain.unique (collision.behind_chains
      (collision.sound.main_used collision.free.key key) old)]
    refine List.mem_flatMap.mpr ⟨i,collision.sound.reach key old,?_⟩
    split_ifs with first <;> simp [first]

theorem Collision.behind_home (same : main owner = main k)
    (key : (behind (main k) n k s.cell i).key = some k') :
    ∃ k'', (behind (main k) n k s.cell (main k')).key = some k'' ∧ main k'' = main k' := by
  rw [behind_key collision.other] at key
  split_ifs at key with here
  · cases key
    refine ⟨owner,?_,same⟩
    rw [behind_key collision.other,if_neg collision.other.symm,collision.taken]
  · obtain ⟨k'',key'',also⟩ := collision.sound.home key
    refine ⟨k'',?_,also⟩
    rw [behind_key collision.other,if_neg (collision.sound.main_used collision.free.key key)]
    exact key''

theorem Collision.behind_unique (first : (behind (main k) n k s.cell i).key = some k')
    (second : (behind (main k) n k s.cell j).key = some k') : i = j := by
  rw [behind_key collision.other] at first second
  split_ifs at first second with a b c
  · rw [a,b]
  · cases first
    exact absurd second (collision.absent j)
  · cases second
    exact absurd first (collision.absent i)
  · exact collision.sound.unique first second

theorem Collision.behind_sound (same : main owner = main k) :
    Sound main size ⟨behind (main k) n k s.cell, n⟩ where
  places := collision.sound.places
  blank := collision.behind_blank
  inside {i k'} key := by
    rw [behind_key collision.other] at key
    split_ifs at key with here
    · rw [here]
      exact collision.below
    · exact collision.sound.inside key
  ends := collision.behind_ends
  target := collision.behind_target
  once := collision.behind_once
  reach := collision.behind_reach
  home := collision.behind_home same
  unique := collision.behind_unique
  limit := Nat.le_of_lt collision.below
  free {i} above inside := by
    rw [behind_key collision.other]
    split_ifs with here
    · simp
    · exact collision.sound.free_below collision.free above inside here

end Behind

structure Displacement (main : K → Nat) (size : Nat) (s : Cells K V) (k : K) (n : Nat) (owner : K)
    (prev : Nat) : Prop extends Collision main size s k n owner where
  away : main owner ≠ main k
  link : (s.cell prev).next = some (main k)

def moved (mp n i : Nat) : Nat := if i = mp then n else i

theorem moved_inj (first : i ≠ n) (second : j ≠ n) (same : moved mp n i = moved mp n j) :
    i = j := by
  unfold moved at same
  split_ifs at same <;> omega

theorem displace_main (prev mp n : Nat) (k : K) (cell : Nat → Cell K V) :
    displace prev mp n k cell mp = ⟨some k, none, none⟩ :=
  Function.update_self ..

section Displaced

variable {owner : K} (move : Displacement main size s k n owner prev)

include move

theorem Displacement.prev_ne : prev ≠ main k := by
  rintro rfl
  obtain ⟨l,chain⟩ := move.sound.ends (main k)
  have nodup := chain.nodup
  cases chain with
  | cons rest =>
    rw [move.link] at rest
    cases rest
    simp at nodup

theorem Displacement.next_moved (other : i ≠ prev) :
    (s.cell i).next.map (moved (main k) n) = (s.cell i).next := by
  cases next : (s.cell i).next with
  | none => rfl
  | some m =>
    have away : m ≠ main k := fun same => other (move.sound.once (same ▸ next) move.link)
    simp [moved,away]

theorem Displacement.at_moved (old : i ≠ n) :
    displace prev (main k) n k s.cell (moved (main k) n i) =
      { s.cell i with next := (s.cell i).next.map (moved (main k) n) } := by
  by_cases here : i = main k
  · subst here
    rw [move.next_moved move.prev_ne.symm]
    simp [moved,displace,move.other,move.prev_ne.symm]
  · by_cases before : i = prev
    · subst before
      simp [moved,displace,here,old,move.link]
    · rw [move.next_moved before]
      simp [moved,displace,here,old,before]

/-- The cells after the move are the new one and those of before. -/
theorem Displacement.cases (i : Nat) : i = main k ∨ ∃ j, j ≠ n ∧ i = moved (main k) n j := by
  by_cases here : i = main k
  · exact Or.inl here
  · by_cases last : i = n
    · exact Or.inr ⟨main k,move.other.symm,by rw [moved,if_pos rfl,last]⟩
    · exact Or.inr ⟨i,last,by rw [moved,if_neg here]⟩

theorem Displacement.key (key : (displace prev (main k) n k s.cell i).key = some k') :
    (i = main k ∧ k' = k) ∨ ∃ j, j ≠ n ∧ i = moved (main k) n j ∧ (s.cell j).key = some k' := by
  rcases move.cases i with rfl | ⟨j,old,rfl⟩
  · rw [displace_main] at key
    exact Or.inl ⟨rfl,(Option.some.inj key).symm⟩
  · rw [move.at_moved old] at key
    exact Or.inr ⟨j,old,rfl,key⟩

theorem Displacement.next (next : (displace prev (main k) n k s.cell i).next = some m) :
    ∃ j m', j ≠ n ∧ i = moved (main k) n j ∧ (s.cell j).next = some m' ∧
      m = moved (main k) n m' := by
  rcases move.cases i with rfl | ⟨j,old,rfl⟩
  · rw [displace_main] at next
    cases next
  · rw [move.at_moved old] at next
    obtain ⟨m',link,rfl⟩ := Option.map_eq_some_iff.mp next
    exact ⟨j,m',old,rfl,link,rfl⟩

/-- A place a link leads to is not the free one. -/
theorem Displacement.linked (next : (s.cell i).next = some m) : m ≠ n := by
  rintro rfl
  exact move.sound.no_link move.free i next

theorem Displacement.chain (chain : Chain s.cell o l) (new : n ∉ l) :
    Chain (displace prev (main k) n k s.cell) (o.map (moved (main k) n))
      (l.map (moved (main k) n)) := by
  induction chain with
  | nil => exact .nil
  | @cons i l _ ih =>
    refine .cons ?_
    rw [move.at_moved fun same => new (by simp [same])]
    exact ih fun member => new (by simp [member])

/-- No key has the main position of the cell that is moved away. -/
theorem Displacement.vacant (key : (s.cell i).key = some k') : main k' ≠ main k := by
  intro same
  obtain ⟨k'',key'',also⟩ := move.sound.home key
  rw [same,move.taken] at key''
  cases key''
  exact move.away (also.trans same)

theorem Displacement.blank (none_ : (displace prev (main k) n k s.cell i).key = none) :
    (displace prev (main k) n k s.cell i).val = none ∧
      (displace prev (main k) n k s.cell i).next = none := by
  rcases move.cases i with rfl | ⟨j,old,rfl⟩
  · rw [displace_main] at none_
    cases none_
  · rw [move.at_moved old] at none_ ⊢
    obtain ⟨val,next⟩ := move.sound.blank none_
    exact ⟨val,by simp [next]⟩

theorem Displacement.inside (key : (displace prev (main k) n k s.cell i).key = some k') :
    i < size := by
  rcases move.key key with ⟨rfl,-⟩ | ⟨j,-,rfl,old⟩
  · exact move.sound.places k
  · unfold moved
    split_ifs
    · exact move.below
    · exact move.sound.inside old

theorem Displacement.ends (i : Nat) :
    ∃ l, Chain (displace prev (main k) n k s.cell) (some i) l := by
  rcases move.cases i with rfl | ⟨j,old,rfl⟩
  · refine ⟨[main k],.cons ?_⟩
    rw [displace_main]
    exact .nil
  · obtain ⟨l,chain⟩ := move.sound.ends j
    exact ⟨_,move.chain chain (move.sound.fresh move.free.key chain old)⟩

theorem Displacement.target (next : (displace prev (main k) n k s.cell i).next = some j) :
    (displace prev (main k) n k s.cell j).key ≠ none := by
  obtain ⟨a,m,-,-,link,rfl⟩ := move.next next
  rw [move.at_moved (move.linked link)]
  exact move.sound.target link

theorem Displacement.once (first : (displace prev (main k) n k s.cell i).next = some m)
    (second : (displace prev (main k) n k s.cell j).next = some m) : i = j := by
  obtain ⟨a,m,-,rfl,link,rfl⟩ := move.next first
  obtain ⟨b,m',-,rfl,link',same⟩ := move.next second
  obtain rfl := moved_inj (move.linked link) (move.linked link') same
  rw [move.sound.once link link']

theorem Displacement.reach (key : (displace prev (main k) n k s.cell i).key = some k')
    (chain : Chain (displace prev (main k) n k s.cell) (some (main k')) l') : i ∈ l' := by
  rcases move.key key with ⟨rfl,rfl⟩ | ⟨j,-,rfl,old⟩
  · cases chain
    simp
  · obtain ⟨l,before⟩ := move.sound.ends (main k')
    have now := move.chain before
      (move.sound.fresh move.free.key before (move.sound.main_used move.free.key old))
    rw [Option.map_some,moved,if_neg (move.vacant old)] at now
    rw [chain.unique now]
    exact List.mem_map_of_mem (move.sound.reach old before)

theorem Displacement.home (key : (displace prev (main k) n k s.cell i).key = some k') :
    ∃ k'', (displace prev (main k) n k s.cell (main k')).key = some k'' ∧
      main k'' = main k' := by
  rcases move.key key with ⟨rfl,rfl⟩ | ⟨j,-,rfl,old⟩
  · exact ⟨k',by rw [displace_main],rfl⟩
  · obtain ⟨k'',key'',also⟩ := move.sound.home old
    have there := move.at_moved (move.sound.main_used move.free.key old)
    rw [moved,if_neg (move.vacant old)] at there
    exact ⟨k'',by rw [there,key''],also⟩

theorem Displacement.unique (first : (displace prev (main k) n k s.cell i).key = some k')
    (second : (displace prev (main k) n k s.cell j).key = some k') : i = j := by
  rcases move.key first with ⟨rfl,rfl⟩ | ⟨a,-,rfl,key⟩ <;>
    rcases move.key second with ⟨rfl,same⟩ | ⟨b,-,rfl,key'⟩
  · rfl
  · exact absurd key' (move.absent b)
  · exact absurd (same ▸ key) (move.absent a)
  · rw [move.sound.unique key key']

theorem Displacement.full (above : n ≤ i) (inside : i < size) :
    (displace prev (main k) n k s.cell i).key ≠ none := by
  rcases move.cases i with rfl | ⟨j,old,rfl⟩
  · simp [displace_main]
  · rw [move.at_moved old]
    by_cases here : j = main k
    · simp [here,move.taken]
    · rw [moved,if_neg here] at above inside
      exact move.sound.free_below move.free above inside old

theorem Displacement.displace_sound :
    Sound main size ⟨displace prev (main k) n k s.cell, n⟩ where
  places := move.sound.places
  blank := move.blank
  inside := move.inside
  ends := move.ends
  target := move.target
  once := move.once
  reach := move.reach
  home := move.home
  unique := move.unique
  limit := Nat.le_of_lt move.below
  free := move.full

end Displaced

end LuaKernel.HashChains
