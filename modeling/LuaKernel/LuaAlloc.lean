import LuaKernel.Sqlite

/-! `l_alloc`, the allocator the kernel gives to Lua, against the `lua_Alloc` contract. Lua
counts bytes in `size_t`; `sqlite3_realloc` takes an `int`, so the request reaches SQLite
reduced modulo 2^32 and read as signed. -/
namespace LuaKernel.LuaAlloc

open Bytes Sqlite

variable {Links : Type} (pool : Pool Links)

def lAlloc (ptr _osize nsize : Nat) (h : Heap Links) : Nat × Heap Links :=
  if nsize = 0 then (0, sqlite3Free pool ptr h) else realloc pool ptr (int32 nsize) h

/-- What Lua expects of one call. For a null `ptr` the old size carries no promise. -/
def Contract (h : Heap Links) (ptr osize nsize : Nat) (r : Nat × Heap Links) : Prop :=
  if nsize = 0 then r.1 = 0 ∧ r.2.live ptr = none
  else
    ((r.1 ≠ 0 ∧ ∃ k, r.2.live r.1 = some k ∧ nsize ≤ chunk k ∧
        (ptr ≠ 0 → ∀ i, i < min osize nsize → r.2.bytes (r.1 + i) = h.bytes (ptr + i))) ∨
      (r.1 = 0 ∧ r.2.live ptr = h.live ptr ∧
        ∀ k i, h.live ptr = some k → i < chunk k → r.2.bytes (ptr + i) = h.bytes (ptr + i))) ∧
    (ptr ≠ 0 → nsize ≤ osize → r.1 ≠ 0)

/-- What Lua guarantees: a null pointer, or a live block with the size it was given. -/
def Request (h : Heap Links) (ptr osize : Nat) : Prop :=
  ptr = 0 ∨ ∃ k, h.live ptr = some k ∧ osize ≤ chunk k

structure Valid (h : Heap Links) : Prop where
  separate : h.Separate
  consistent : pool.Consistent h

/-- The residue SQLite sees after the narrowing. -/
theorem realloc_residue (ptr nsize : Nat) (h : Heap Links) :
    realloc pool ptr (int32 nsize) h =
      sqlite3Realloc pool ptr (if nsize % 2 ^ 32 < 2 ^ 31 then nsize % 2 ^ 32 else 0) h := by
  have : (int32 nsize).toNat = if nsize % 2 ^ 32 < 2 ^ 31 then nsize % 2 ^ 32 else 0 := by
    unfold int32
    split <;> omega
  rw [realloc,this]

structure Narrowed (nsize r : Nat) : Prop where
  small : nsize < 2 ^ 31 → r = nsize
  notMore : r ≤ nsize

theorem narrowed (nsize : Nat) : Narrowed nsize (nsize % 2 ^ 32) :=
  ⟨fun small => Nat.mod_eq_of_lt (by omega),Nat.mod_le _ _⟩

/-- A chunk that holds the residue holds the request only when nothing was cut off. -/
theorem Narrowed.fits (residue : Narrowed nsize r) (enough : r ≤ chunk k) (bound : k ≤ logMax) :
    nsize ≤ chunk k ↔ nsize < 2 ^ 31 := by
  have below := chunk_below bound
  constructor
  · omega
  · intro small
    rw [← residue.small small]
    exact enough

section Calls

variable {pool} {h : Heap Links} (valid : Valid pool h)

include valid

theorem null_size : memsys5Size h 0 = 0 := by simp [memsys5Size,valid.separate.nonNull]

theorem live_notNull (live : h.live ptr = some k) : ptr ≠ 0 := by
  rintro rfl
  rw [valid.separate.nonNull] at live
  contradiction

/-- A chunk off the free lists is not one that is checked out. -/
theorem taken_ne (live : h.live ptr = some k)
    (taken : pool.take h j = some (p, links, bytes)) : p ≠ ptr := by
  obtain ⟨-,apart⟩ := pool.take_fresh h j p links bytes valid.consistent taken
  intro same
  have := apart ptr k live
  have := chunk_pos k
  have := chunk_pos j
  omega

theorem checkout_valid (bound : j ≤ logMax) (taken : pool.take h j = some (p, links, bytes)) :
    Valid pool (Heap.checkout ⟨h.live, bytes, links⟩ p j) := by
  obtain ⟨notNull,apart⟩ := pool.take_fresh h j p links bytes valid.consistent taken
  refine ⟨⟨?_,?_,?_⟩,pool.take_consistent h j p links bytes valid.consistent taken⟩
  · simp [Heap.checkout,notNull.symm,valid.separate.nonNull]
  · intro q l live
    by_cases new : q = p
    · simp only [Heap.checkout,new,↓reduceIte,Option.some.injEq] at live
      omega
    · exact valid.separate.bounded q l (by simpa [Heap.checkout,new] using live)
  · intro q r k l first second different
    by_cases left : q = p
    · have right : r ≠ p := fun same => different (left.trans same.symm)
      simp only [Heap.checkout,left,right,↓reduceIte,Option.some.injEq] at first second
      subst left first
      exact apart r l second
    · by_cases right : r = p
      · simp only [Heap.checkout,left,right,↓reduceIte,Option.some.injEq] at first second
        subst right second
        exact (apart q k first).symm
      · simp only [Heap.checkout,left,right,↓reduceIte] at first second
        exact valid.separate.apart q r k l first second different

theorem free_valid (live : h.live ptr = some k) : Valid pool (memsys5FreeUnsafe pool ptr h) := by
  have remains : ∀ q l, (memsys5FreeUnsafe pool ptr h).live q = some l → h.live q = some l := by
    intro q l found
    by_cases freed : q = ptr
    · simp [memsys5FreeUnsafe,Heap.release,freed] at found
    · simpa [memsys5FreeUnsafe,Heap.release,freed] using found
  refine ⟨⟨?_,?_,?_⟩,pool.give_consistent h ptr k valid.consistent live⟩
  · simp [memsys5FreeUnsafe,Heap.release,valid.separate.nonNull]
  · exact fun q l found => valid.separate.bounded q l (remains q l found)
  · exact fun q r k l first second =>
      valid.separate.apart q r k l (remains q k first) (remains r l second)

theorem memcpy_valid (live : h.live p = some j) (inside : n ≤ chunk j) :
    Valid pool (memcpy p source n h) := by
  refine ⟨⟨valid.separate.nonNull,valid.separate.bounded,valid.separate.apart⟩,?_⟩
  refine pool.write_consistent _ _ valid.consistent fun a outside => ?_
  have beyond := outside p j live
  simp only [ite_eq_right_iff]
  omega

/-- The heap a move goes through, between the copy and the free. -/
theorem filled_valid (taken : pool.take h j = some (p, links, bytes)) (bound : j ≤ logMax)
    (larger : chunk k ≤ chunk j) :
    Valid pool (memcpy p ptr (chunk k) (Heap.checkout ⟨h.live, bytes, links⟩ p j)) := by
  have checkedOut : (Heap.checkout ⟨h.live, bytes, links⟩ p j).live p = some j := by
    simp [Heap.checkout]
  exact memcpy_valid (checkout_valid valid bound taken) checkedOut larger

/-- The chunks held before are still held there. -/
theorem filled_live (taken : pool.take h j = some (p, links, bytes)) (live : h.live q = some l)
    (source n : Nat) :
    (memcpy p source n (Heap.checkout ⟨h.live, bytes, links⟩ p j)).live q = some l := by
  simp [memcpy,Heap.checkout,(taken_ne valid live taken).symm,live]

/-- A chunk moved to a larger one keeps its bytes through the copy and the free. -/
theorem moved_bytes (live : h.live ptr = some k)
    (taken : pool.take h j = some (p, links, bytes)) (bound : j ≤ logMax)
    (larger : chunk k ≤ chunk j) (i : Nat) (inside : i < chunk k) :
    (memsys5FreeUnsafe pool ptr
      (memcpy p ptr (chunk k) (Heap.checkout ⟨h.live, bytes, links⟩ p j))).bytes (p + i) =
        h.bytes (ptr + i) := by
  have different := taken_ne valid live taken
  let filled := memcpy p ptr (chunk k) (Heap.checkout ⟨h.live, bytes, links⟩ p j)
  have filledValid : Valid pool filled := filled_valid valid taken bound larger
  have kept := pool.give_keeps filled ptr filledValid.consistent p j i
    (by simp [filled,memcpy,Heap.release,Heap.checkout,different]) (by omega)
  have copied := pool.take_keeps h j p links bytes valid.consistent taken ptr k i live inside
  simp only [memsys5FreeUnsafe,Heap.release]
  rw [kept]
  simpa [filled,memcpy,Heap.checkout,Heap.release,inside] using copied

/-- With a null pointer the request is an allocation: what is served is too small for a
request of 2^31 bytes, what is refused is refused cleanly. -/
theorem null_contract (osize nsize r : Nat) (positive : 0 < nsize) (residue : Narrowed nsize r) :
    Contract h 0 osize nsize (sqlite3Realloc pool 0 (if r < 2 ^ 31 then r else 0) h) ↔
      nsize < 2 ^ 31 ∨ r = 0 ∨ 2 ^ 31 ≤ r ∨ ¬Serves pool h 0 r := by
  have nonzero : nsize ≠ 0 := by omega
  have allocation (n : Nat) : sqlite3Realloc pool 0 n h = sqlite3Malloc pool n h := by
    simp [sqlite3Realloc]
  rw [allocation]
  by_cases signed : 0 < r ∧ r < 2 ^ 31
  · rw [if_pos signed.2]
    by_cases served : Serves pool h 0 r
    · obtain ⟨request,room⟩ := served
      have taken : (pool.take h (logSize r)).isSome = true := by
        rcases room with inPlace | taken
        · rw [null_size valid] at inPlace; omega
        · exact taken
      obtain ⟨⟨p,links,bytes⟩,found⟩ := Option.isSome_iff_exists.mp taken
      obtain ⟨notNull,-⟩ := pool.take_fresh _ _ _ _ _ valid.consistent found
      have round := rounded r request
      have fits := residue.fits round.enough round.bound
      rw [sqlite3Malloc_served pool h _ signed.1 request found]
      simp [Contract,nonzero,Heap.checkout,notNull,Serves,request,taken,fits]
      omega
    · have refused : sqlite3Malloc pool r h = (0, h) := by
        apply sqlite3Malloc_refused
        by_cases request : r ≤ 0x40000000
        · exact Or.inr (Or.inr (not_served request served).2)
        · exact Or.inr (Or.inl (by omega))
      rw [refused]
      simp [Contract,nonzero,served]
  · have refused : sqlite3Malloc pool (if r < 2 ^ 31 then r else 0) h = (0, h) := by
      apply sqlite3Malloc_refused
      left
      split <;> omega
    rw [refused]
    simp [Contract,nonzero]
    omega

section Live

variable {ptr k : Nat} (live : h.live ptr = some k) {nsize : Nat} (positive : 0 < nsize)

include live positive

theorem contract_in_place (osize : Nat) :
    Contract h ptr osize nsize (ptr, h) ↔ nsize ≤ chunk k := by
  have notNull := live_notNull valid live
  have nonzero : nsize ≠ 0 := by omega
  simp [Contract,nonzero,notNull,live]

theorem contract_moved (honest : osize ≤ chunk k)
    (taken : pool.take h j = some (p, links, bytes)) (bound : j ≤ logMax)
    (larger : chunk k ≤ chunk j) :
    Contract h ptr osize nsize (p, memsys5FreeUnsafe pool ptr
      (memcpy p ptr (chunk k) (Heap.checkout ⟨h.live, bytes, links⟩ p j))) ↔
        nsize ≤ chunk j := by
  obtain ⟨notNull,-⟩ := pool.take_fresh _ _ _ _ _ valid.consistent taken
  have different := taken_ne valid live taken
  have kept : ∀ i, i < min osize nsize → (memsys5FreeUnsafe pool ptr
      (memcpy p ptr (chunk k) (Heap.checkout ⟨h.live, bytes, links⟩ p j))).bytes (p + i) =
        h.bytes (ptr + i) :=
    fun i inside => moved_bytes valid live taken bound larger i (by omega)
  have checkedOut : (memsys5FreeUnsafe pool ptr
      (memcpy p ptr (chunk k) (Heap.checkout ⟨h.live, bytes, links⟩ p j))).live p = some j := by
    simp [memsys5FreeUnsafe,memcpy,Heap.checkout,Heap.release,different]
  have nonzero : nsize ≠ 0 := by omega
  simp only [Contract,nonzero,↓reduceIte]
  constructor
  · rintro ⟨⟨-,l,found,fits,-⟩ | ⟨null,-⟩,-⟩
    · rw [checkedOut] at found
      exact Option.some.inj found ▸ fits
    · exact absurd null notNull
  · intro fits
    exact ⟨Or.inl ⟨notNull,j,checkedOut,fits,fun _ => kept⟩,fun _ _ => notNull⟩

theorem contract_refused (osize : Nat) :
    Contract h ptr osize nsize (0, h) ↔ osize < nsize := by
  have notNull := live_notNull valid live
  have nonzero : nsize ≠ 0 := by omega
  simp [Contract,nonzero,notNull]

omit valid in
theorem contract_freed (osize : Nat) :
    ¬Contract h ptr osize nsize (0, memsys5FreeUnsafe pool ptr h) := by
  have nonzero : nsize ≠ 0 := by omega
  simp [Contract,nonzero,memsys5FreeUnsafe,Heap.release,live]

/-- With a live pointer the residues that read as no positive `int` free the block. -/
theorem live_contract (residue : Narrowed nsize r) (honest : osize ≤ chunk k) :
    Contract h ptr osize nsize (sqlite3Realloc pool ptr (if r < 2 ^ 31 then r else 0) h) ↔
      nsize < 2 ^ 31 ∨ (0 < r ∧ r < 2 ^ 31 ∧ ¬Serves pool h ptr r) := by
  have notNull := live_notNull valid live
  have bound := valid.separate.bounded ptr k live
  by_cases signed : 0 < r ∧ r < 2 ^ 31
  · rw [if_pos signed.2]
    have ends := sqlite3Realloc_ends pool h live notNull bound valid.consistent r
    generalize sqlite3Realloc pool ptr r h = result at ends ⊢
    cases ends with
    | freed nothing => omega
    | kept fits =>
      have largest := chunk_mono bound
      rw [chunk_logMax] at largest
      have served : Serves pool h ptr r :=
        ⟨by omega,Or.inl (by rw [size_live h live]; exact fits)⟩
      rw [contract_in_place valid live positive,residue.fits fits bound]
      simp [served]
    | moved grows request taken =>
      have served : Serves pool h ptr r := ⟨request,Or.inr (by rw [taken]; rfl)⟩
      have round := rounded r request
      have enough := round.enough
      rw [contract_moved valid live positive honest taken round.bound (by omega),
        residue.fits enough round.bound]
      simp [served]
    | refused grows unserved =>
      have notServed : ¬Serves pool h ptr r := by
        rintro ⟨request,room⟩
        rw [size_live h live] at room
        rcases unserved with large | none
        · omega
        · simp [none] at room
          omega
      have notMore := residue.notMore
      rw [contract_refused valid live positive]
      exact iff_of_true (by omega) (Or.inr ⟨signed.1,signed.2,notServed⟩)
  · have freed : (if r < 2 ^ 31 then r else 0) = 0 := by split <;> omega
    rw [freed,sqlite3Realloc_freed pool h notNull]
    constructor
    · exact fun contract => absurd contract (contract_freed live positive osize)
    · rintro (small | ⟨lower,upper,-⟩)
      · have same := residue.small small
        omega
      · omega

end Live

theorem sqlite3Malloc_valid (n : Nat) : Valid pool (sqlite3Malloc pool n h).2 := by
  by_cases refused : n = 0 ∨ 0x40000000 < n ∨ pool.take h (logSize n) = none
  · rw [sqlite3Malloc_refused pool h n refused]
    exact valid
  · simp only [not_or] at refused
    obtain ⟨positive,request,taken⟩ := refused
    obtain ⟨⟨p,links,bytes⟩,found⟩ := Option.ne_none_iff_exists'.mp taken
    rw [sqlite3Malloc_served pool h n (by omega) (by omega) found]
    exact checkout_valid valid (rounded n (by omega)).bound found

theorem sqlite3Realloc_valid (live : h.live ptr = some k) (n : Nat) :
    Valid pool (sqlite3Realloc pool ptr n h).2 := by
  have bound := valid.separate.bounded ptr k live
  have ends := sqlite3Realloc_ends pool h live (live_notNull valid live) bound valid.consistent n
  generalize sqlite3Realloc pool ptr n h = result at ends ⊢
  cases ends with
  | freed => exact free_valid valid live
  | kept | refused => exact valid
  | @moved p links bytes grows request taken =>
    have round := rounded n request
    have enough := round.enough
    exact free_valid (filled_valid valid taken round.bound (by omega))
      (filled_live valid taken live ptr (chunk k))

/-- `l_alloc` meets its contract exactly when the request is below 2^31 bytes, or when what
the narrowing makes of it is refused without touching the block. -/
theorem lAlloc_contract_iff (request : Request h ptr osize) (nsize : Nat) :
    Contract h ptr osize nsize (lAlloc pool ptr osize nsize h) ↔
      nsize < 2 ^ 31 ∨
        if ptr = 0 then nsize % 2 ^ 32 = 0 ∨ 2 ^ 31 ≤ nsize % 2 ^ 32 ∨
          ¬Serves pool h 0 (nsize % 2 ^ 32)
        else 0 < nsize % 2 ^ 32 ∧ nsize % 2 ^ 32 < 2 ^ 31 ∧
          ¬Serves pool h ptr (nsize % 2 ^ 32) := by
  by_cases nothing : nsize = 0
  · subst nothing
    have freed : (sqlite3Free pool ptr h).live ptr = none := by
      by_cases null : ptr = 0
      · simpa [sqlite3Free,null] using valid.separate.nonNull
      · simp [sqlite3Free,null,memsys5FreeUnsafe,Heap.release]
    simp [Contract,lAlloc,freed]
  · have positive : 0 < nsize := by omega
    rw [lAlloc,if_neg nothing,realloc_residue]
    rcases request with rfl | ⟨k,live,honest⟩
    · rw [if_pos rfl]
      exact null_contract valid osize nsize _ positive (narrowed nsize)
    · rw [if_neg (live_notNull valid live)]
      exact live_contract valid live positive (narrowed nsize) honest

end Calls

def bump : Pool Nat where
  Consistent h := 0 < h.links ∧ ∀ q l, h.live q = some l → q + chunk l ≤ h.links
  take h k := some (h.links, h.links + chunk k, h.bytes)
  give h _ := (h.links, h.bytes)
  take_fresh := by
    rintro h k p links bytes ⟨positive,below⟩ taken
    obtain ⟨rfl,-,-⟩ := by simpa using taken
    exact ⟨by omega,fun q l live => Or.inr (below q l live)⟩
  take_keeps := by
    rintro h k p links bytes - taken q l i - -
    obtain ⟨-,-,rfl⟩ := by simpa using taken
    rfl
  take_consistent := by
    rintro h k p links bytes ⟨positive,below⟩ taken
    obtain ⟨rfl,rfl,rfl⟩ := by simpa using taken
    refine ⟨by simp only [Heap.checkout]; omega,fun q l live => ?_⟩
    by_cases new : q = h.links
    · simp only [Heap.checkout,new,↓reduceIte,Option.some.injEq] at live
      simp [Heap.checkout,new,live]
    · simp only [Heap.checkout,new,↓reduceIte] at live
      have := below q l live
      simp only [Heap.checkout]
      omega
  give_keeps := by
    rintro h p - q l i - -
    rfl
  give_consistent := by
    rintro h p k ⟨positive,below⟩ -
    refine ⟨positive,fun q l live => ?_⟩
    by_cases freed : q = p
    · simp [Heap.release,freed] at live
    · exact below q l (by simpa [Heap.release,freed] using live)
  write_consistent := by
    rintro h bytes consistent -
    exact consistent

def oneBlock : Heap Nat :=
  ⟨fun a => if a = 64 then some 0 else none,fun _ => 0,128⟩

theorem oneBlock_valid : Valid bump oneBlock := by
  have single : ∀ q l, oneBlock.live q = some l → q = 64 ∧ l = 0 := by
    intro q l live
    by_cases here : q = 64
    · simpa [oneBlock,here,eq_comm] using live
    · simp [oneBlock,here] at live
  refine ⟨⟨rfl,?_,?_⟩,by decide,?_⟩
  · intro p k live
    simp [single p k live]
  · intro p q k l first second different
    exact absurd ((single p k first).1.trans (single q l second).1.symm) different
  · intro q l live
    obtain ⟨rfl,rfl⟩ := single q l live
    decide

theorem oneBlock_request : Request oneBlock 64 10 := Or.inr ⟨0,rfl,by decide⟩

/-- Growing ten bytes to 200 in that heap. -/
theorem lAlloc_contract_grows :
    Contract oneBlock 64 10 200 (lAlloc bump 64 10 200 oneBlock) :=
  (lAlloc_contract_iff oneBlock_valid oneBlock_request 200).mpr (Or.inl (by decide))

/-- Growing the same block to 2^32 bytes frees it. -/
theorem lAlloc_frees_at_four_gibibytes :
    Valid bump oneBlock ∧ Request oneBlock 64 10 ∧
      ¬Contract oneBlock 64 10 (2 ^ 32) (lAlloc bump 64 10 (2 ^ 32) oneBlock) := by
  refine ⟨oneBlock_valid,oneBlock_request,?_⟩
  rw [lAlloc,if_neg (by decide),realloc_residue]
  exact contract_freed (k := 0) rfl (by decide) 10

end LuaKernel.LuaAlloc
