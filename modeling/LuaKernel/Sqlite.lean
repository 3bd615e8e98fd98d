import Mathlib.Algebra.Order.Ring.Nat
import LuaKernel.Bytes

/-! SQLite's allocation interface over memsys5: `sqlite3_free`, `sqlite3_realloc` and the
layers under them, with memory statistics on and no alarm callback, as the kernel leaves
them. The buddy free lists are a parameter `Pool`: how a chunk is found, split and merged
is left open, what a checked-out chunk is owed is not. -/
namespace LuaKernel.Sqlite

/-- `memsys5Init` with the `mnReq` of 64 that `main` passes: already a power of two and
larger than a `Mem5Link`. -/
def szAtom : Nat := 64

/-- Bytes of a chunk whose `aCtrl` log size is `iLogsize`. -/
def chunk (iLogsize : Nat) : Nat := szAtom * 2 ^ iLogsize

/-- Log size of the largest request memsys5 takes, 0x40000000 bytes. -/
def logMax : Nat := 24

/-- Checked-out chunks by address, the bytes of the pool, and the free lists. Address 0
is NULL. -/
structure Heap (Links : Type) where
  live : Nat → Option Nat
  bytes : Nat → UInt8
  links : Links

variable {Links : Type}

def Keeps (h : Heap Links) (bytes : Nat → UInt8) : Prop :=
  ∀ q l i, h.live q = some l → i < chunk l → bytes (q + i) = h.bytes (q + i)

def Heap.release (h : Heap Links) (p : Nat) : Heap Links :=
  { h with live := fun a => if a = p then none else h.live a }

def Heap.checkout (h : Heap Links) (p k : Nat) : Heap Links :=
  { h with live := fun a => if a = p then some k else h.live a }

structure Heap.Separate (h : Heap Links) : Prop where
  nonNull : h.live 0 = none
  bounded : ∀ p k, h.live p = some k → k ≤ logMax
  apart : ∀ p q k l, h.live p = some k → h.live q = some l → p ≠ q →
    p + chunk k ≤ q ∨ q + chunk l ≤ p

/-- The free lists of memsys5: taking a chunk of a log size off them and putting one back,
with the link words that moves. `Consistent` is their own invariant. -/
structure Pool (Links : Type) where
  Consistent : Heap Links → Prop
  take : Heap Links → Nat → Option (Nat × Links × (Nat → UInt8))
  give : Heap Links → Nat → Links × (Nat → UInt8)
  take_fresh : ∀ h k p links bytes, Consistent h → take h k = some (p, links, bytes) →
    p ≠ 0 ∧ ∀ q l, h.live q = some l → p + chunk k ≤ q ∨ q + chunk l ≤ p
  take_keeps : ∀ h k p links bytes, Consistent h → take h k = some (p, links, bytes) →
    Keeps h bytes
  take_consistent : ∀ h k p links bytes, Consistent h → take h k = some (p, links, bytes) →
    Consistent (Heap.checkout ⟨h.live, bytes, links⟩ p k)
  give_keeps : ∀ h p, Consistent h → Keeps (h.release p) (give h p).2
  give_consistent : ∀ h p k, Consistent h → h.live p = some k →
    Consistent (Heap.release ⟨h.live, (give h p).2, (give h p).1⟩ p)
  /-- Free lists lie outside the bytes of checked-out chunks. -/
  write_consistent : ∀ h bytes, Consistent h →
    (∀ a, (∀ q l, h.live q = some l → a < q ∨ q + chunk l ≤ a) → bytes a = h.bytes a) →
    Consistent { h with bytes := bytes }

/-- `for(iFullSz=szAtom, iLogsize=0; iFullSz<nByte; iFullSz *= 2, iLogsize++){}`; the fuel
reaches past the largest request. -/
def roundLoop (nByte : Nat) : Nat → Nat → Nat → Nat × Nat
  | 0, iFullSz, iLogsize => (iFullSz, iLogsize)
  | fuel + 1, iFullSz, iLogsize =>
    if iFullSz < nByte then roundLoop nByte fuel (iFullSz * 2) (iLogsize + 1)
    else (iFullSz, iLogsize)

def fullSize (nByte : Nat) : Nat := (roundLoop nByte logMax szAtom 0).1
def logSize (nByte : Nat) : Nat := (roundLoop nByte logMax szAtom 0).2

def memsys5Roundup (n : Nat) : Nat := if 0x40000000 < n then 0 else fullSize n

def memsys5Size (h : Heap Links) (p : Nat) : Nat :=
  match h.live p with
  | some k => chunk k
  | none => 0

section Functions

variable (pool : Pool Links)

def memsys5MallocUnsafe (nByte : Nat) (h : Heap Links) : Nat × Heap Links :=
  if 0x40000000 < nByte then (0, h) else
  match pool.take h (logSize nByte) with
  | none => (0, h)
  | some (p, links, bytes) => (p, Heap.checkout ⟨h.live, bytes, links⟩ p (logSize nByte))

def memsys5FreeUnsafe (pOld : Nat) (h : Heap Links) : Heap Links :=
  Heap.release ⟨h.live, (pool.give h pOld).2, (pool.give h pOld).1⟩ pOld

def memsys5Malloc (nBytes : Nat) (h : Heap Links) : Nat × Heap Links :=
  if 0 < nBytes then memsys5MallocUnsafe pool nBytes h else (0, h)

def memcpy (p pPrior n : Nat) (h : Heap Links) : Heap Links :=
  { h with bytes := fun a => if p ≤ a ∧ a < p + n then h.bytes (pPrior + (a - p)) else h.bytes a }

def memsys5Realloc (pPrior nBytes : Nat) (h : Heap Links) : Nat × Heap Links :=
  if nBytes = 0 then (0, h) else
  let nOld := memsys5Size h pPrior
  if nBytes ≤ nOld then (pPrior, h) else
  let (p, h') := memsys5MallocUnsafe pool nBytes h
  if p ≠ 0 then (p, memsys5FreeUnsafe pool pPrior (memcpy p pPrior nOld h')) else (p, h')

/-- Through `mallocWithAlarm`, which rounds the request up first. -/
def sqlite3Malloc (n : Nat) (h : Heap Links) : Nat × Heap Links :=
  if n = 0 ∨ 0x7fffff00 ≤ n then (0, h) else memsys5Malloc pool (memsys5Roundup n) h

def sqlite3Free (p : Nat) (h : Heap Links) : Heap Links :=
  if p = 0 then h else memsys5FreeUnsafe pool p h

def sqlite3Realloc (pOld nBytes : Nat) (h : Heap Links) : Nat × Heap Links :=
  if pOld = 0 then sqlite3Malloc pool nBytes h else
  if nBytes = 0 then (0, sqlite3Free pool pOld h) else
  if 0x7fffff00 ≤ nBytes then (0, h) else
  let nOld := memsys5Size h pOld
  let nNew := memsys5Roundup nBytes
  if nOld = nNew then (pOld, h) else memsys5Realloc pool pOld nNew h

/-- The public `sqlite3_realloc`, on an initialised library. -/
def realloc (pOld : Nat) (n : Int) (h : Heap Links) : Nat × Heap Links :=
  sqlite3Realloc pool pOld n.toNat h

end Functions

theorem chunk_pos (k : Nat) : 0 < chunk k := by simp [chunk,szAtom]

theorem chunk_mono (h : k ≤ l) : chunk k ≤ chunk l :=
  Nat.mul_le_mul_left szAtom (Nat.pow_le_pow_right (by decide) h)

theorem chunk_lt (h : k < l) : chunk k < chunk l :=
  Nat.mul_lt_mul_of_pos_left (Nat.pow_lt_pow_right (by decide) h) (by decide)

theorem chunk_logMax : chunk logMax = 0x40000000 := by decide

/-- SQLite never hands out a chunk of 2^31 bytes. -/
theorem chunk_below (bound : k ≤ logMax) : chunk k < 2 ^ 31 := by
  have := chunk_mono bound
  rw [chunk_logMax] at this
  omega

/-- The loop stops at the first chunk that is large enough, or when the fuel ends. -/
theorem roundLoop_spec (n fuel k : Nat) :
    ∃ j, roundLoop n fuel (chunk k) k = (chunk j, j) ∧ j ≤ k + fuel ∧
      (n ≤ chunk j ∨ j = k + fuel) ∧ ∀ i, k ≤ i → i < j → chunk i < n := by
  induction fuel generalizing k with
  | zero => exact ⟨k,rfl,by omega,Or.inr rfl,by omega⟩
  | succ fuel ih =>
    by_cases small : chunk k < n
    · obtain ⟨j,result,bound,enough,before⟩ := ih (k + 1)
      have doubled : chunk k * 2 = chunk (k + 1) := by simp only [chunk,Nat.pow_succ,Nat.mul_assoc]
      refine ⟨j,?_,by omega,?_,?_⟩
      · rw [roundLoop,if_pos small,doubled,result]
      · rcases enough with enough | last
        · exact Or.inl enough
        · exact Or.inr (by omega)
      · intro i lower upper
        by_cases first : i = k
        · exact first ▸ small
        · exact before i (by omega) upper
    · exact ⟨k,by rw [roundLoop,if_neg small],by omega,Or.inl (by omega),by omega⟩

structure Rounded (n : Nat) : Prop where
  size : fullSize n = chunk (logSize n)
  bound : logSize n ≤ logMax
  enough : n ≤ chunk (logSize n)
  least : ∀ k, n ≤ chunk k → logSize n ≤ k

theorem rounded (n : Nat) (request : n ≤ 0x40000000) : Rounded n := by
  obtain ⟨j,result,bound,enough,before⟩ := roundLoop_spec n logMax 0
  have start : chunk 0 = szAtom := by decide
  rw [start] at result
  have size : fullSize n = chunk j := by rw [fullSize,result]
  have log : logSize n = j := by rw [logSize,result]
  refine ⟨by rw [size,log],by omega,?_,?_⟩
  · rcases enough with enough | last
    · rwa [log]
    · rw [log,last,Nat.zero_add,chunk_logMax]; exact request
  · intro k fits
    rw [log]
    by_contra smaller
    have := before k (Nat.zero_le k) (by omega)
    omega

theorem logSize_chunk (k : Nat) (bound : k ≤ logMax) : logSize (chunk k) = k := by
  have request : chunk k ≤ 0x40000000 := chunk_logMax ▸ chunk_mono bound
  have least := (rounded _ request).least k (Nat.le_refl _)
  have enough := (rounded _ request).enough
  by_contra different
  have := chunk_lt (k := logSize (chunk k)) (l := k) (by omega)
  omega

section Results

variable (pool : Pool Links) (h : Heap Links)

/-- SQLite has room for `n` bytes: in the old chunk, or in a chunk of the free lists. -/
def Serves (ptr n : Nat) : Prop :=
  n ≤ 0x40000000 ∧ (n ≤ memsys5Size h ptr ∨ (pool.take h (logSize n)).isSome = true)

variable {pool h} in
theorem not_served (request : n ≤ 0x40000000) (refused : ¬Serves pool h ptr n) :
    memsys5Size h ptr < n ∧ pool.take h (logSize n) = none := by
  simp only [Serves,request,true_and,not_or] at refused
  exact ⟨by omega,by simpa using refused.2⟩

theorem malloc_rounded (n : Nat) (request : n ≤ 0x40000000) :
    memsys5Malloc pool (memsys5Roundup n) h =
      match pool.take h (logSize n) with
      | none => (0, h)
      | some (p, links, bytes) => (p, Heap.checkout ⟨h.live, bytes, links⟩ p (logSize n)) := by
  have round := rounded n request
  have small : chunk (logSize n) ≤ 0x40000000 := chunk_logMax ▸ chunk_mono round.bound
  have same := logSize_chunk _ round.bound
  simp only [memsys5Malloc,memsys5MallocUnsafe,memsys5Roundup,Nat.not_lt.mpr request,round.size,
    chunk_pos,Nat.not_lt.mpr small,same,↓reduceIte]

theorem sqlite3Malloc_refused (n : Nat)
    (refused : n = 0 ∨ 0x40000000 < n ∨ pool.take h (logSize n) = none) :
    sqlite3Malloc pool n h = (0, h) := by
  by_cases outside : n = 0 ∨ 0x7fffff00 ≤ n
  · simp only [sqlite3Malloc,outside,↓reduceIte]
  · simp only [sqlite3Malloc,outside,↓reduceIte]
    by_cases large : 0x40000000 < n
    · simp [memsys5Roundup,memsys5Malloc,large]
    · rw [malloc_rounded pool h n (by omega)]
      rcases refused with none | large | none
      · omega
      · omega
      · rw [none]

theorem sqlite3Malloc_served (n : Nat) (positive : 0 < n) (request : n ≤ 0x40000000)
    (taken : pool.take h (logSize n) = some (p, links, bytes)) :
    sqlite3Malloc pool n h = (p, Heap.checkout ⟨h.live, bytes, links⟩ p (logSize n)) := by
  have inside : ¬(n = 0 ∨ 0x7fffff00 ≤ n) := by omega
  simp only [sqlite3Malloc,inside,↓reduceIte]
  rw [malloc_rounded pool h n request,taken]

theorem sqlite3Realloc_freed (notNull : ptr ≠ 0) :
    sqlite3Realloc pool ptr 0 h = (0, memsys5FreeUnsafe pool ptr h) := by
  simp [sqlite3Realloc,sqlite3Free,notNull]

/-- How a request of `n` bytes for the live chunk at `ptr` can end. -/
inductive Realloc (ptr k n : Nat) : Nat × Heap Links → Prop
  | freed (nothing : n = 0) : Realloc ptr k n (0, memsys5FreeUnsafe pool ptr h)
  | kept (fits : n ≤ chunk k) : Realloc ptr k n (ptr, h)
  | moved (grows : chunk k < n) (request : n ≤ 0x40000000)
      (taken : pool.take h (logSize n) = some (p, links, bytes)) :
      Realloc ptr k n (p, memsys5FreeUnsafe pool ptr
        (memcpy p ptr (chunk k) (Heap.checkout ⟨h.live, bytes, links⟩ p (logSize n))))
  | refused (grows : chunk k < n)
      (unserved : 0x40000000 < n ∨ pool.take h (logSize n) = none) : Realloc ptr k n (0, h)

variable {ptr k : Nat} (live : h.live ptr = some k) (notNull : ptr ≠ 0)

include live

theorem size_live : memsys5Size h ptr = chunk k := by simp [memsys5Size,live]

include notNull

theorem sqlite3Realloc_large (n : Nat) (large : 0x40000000 < n) :
    sqlite3Realloc pool ptr n h = (0, h) := by
  have nonzero : n ≠ 0 := by omega
  by_cases limit : 0x7fffff00 ≤ n
  · simp [sqlite3Realloc,notNull,limit,nonzero]
  · have some : chunk k ≠ 0 := Nat.ne_of_gt (chunk_pos k)
    simp [sqlite3Realloc,memsys5Realloc,memsys5Roundup,notNull,limit,large,size_live h live,
      nonzero,some]

/-- A request that fits the old chunk keeps it, whether or not it rounds to the same size. -/
theorem sqlite3Realloc_fits (n : Nat) (positive : 0 < n) (request : n ≤ 0x40000000)
    (fits : n ≤ chunk k) : sqlite3Realloc pool ptr n h = (ptr, h) := by
  have round := rounded n request
  have smaller : chunk (logSize n) ≤ chunk k := chunk_mono (round.least k fits)
  have some : chunk (logSize n) ≠ 0 := Nat.ne_of_gt (chunk_pos _)
  have nonzero : n ≠ 0 := by omega
  have limit : ¬0x7fffff00 ≤ n := by omega
  simp only [sqlite3Realloc,memsys5Realloc,memsys5Roundup,notNull,size_live h live,round.size,
    nonzero,limit,Nat.not_lt.mpr request,smaller,some,↓reduceIte,ite_self]

theorem sqlite3Realloc_grows (n : Nat) (positive : 0 < n) (request : n ≤ 0x40000000)
    (grows : chunk k < n) :
    sqlite3Realloc pool ptr n h =
      match pool.take h (logSize n) with
      | none => (0, h)
      | some (p, links, bytes) =>
        let moved := Heap.checkout ⟨h.live, bytes, links⟩ p (logSize n)
        if p ≠ 0 then (p, memsys5FreeUnsafe pool ptr (memcpy p ptr (chunk k) moved))
        else (p, moved) := by
  have round := rounded n request
  have enough := round.enough
  have small : chunk (logSize n) ≤ 0x40000000 := chunk_logMax ▸ chunk_mono round.bound
  have same := logSize_chunk _ round.bound
  have some : chunk (logSize n) ≠ 0 := Nat.ne_of_gt (chunk_pos _)
  have larger : ¬chunk (logSize n) ≤ chunk k := by omega
  have different : ¬chunk k = chunk (logSize n) := by omega
  have nonzero : n ≠ 0 := by omega
  have limit : ¬0x7fffff00 ≤ n := by omega
  simp only [sqlite3Realloc,memsys5Realloc,memsys5Roundup,memsys5MallocUnsafe,notNull,
    size_live h live,round.size,nonzero,limit,Nat.not_lt.mpr request,different,some,larger,
    Nat.not_lt.mpr small,same,↓reduceIte]
  cases pool.take h (logSize n) with
  | none => simp
  | some found => rfl

theorem sqlite3Realloc_ends (bound : k ≤ logMax) (consistent : pool.Consistent h) (n : Nat) :
    Realloc pool h ptr k n (sqlite3Realloc pool ptr n h) := by
  rcases Nat.eq_zero_or_pos n with rfl | positive
  · rw [sqlite3Realloc_freed pool h notNull]
    exact .freed rfl
  by_cases large : 0x40000000 < n
  · have largest := chunk_mono bound
    rw [chunk_logMax] at largest
    rw [sqlite3Realloc_large pool h live notNull n large]
    exact .refused (by omega) (Or.inl large)
  by_cases fits : n ≤ chunk k
  · rw [sqlite3Realloc_fits pool h live notNull n positive (by omega) fits]
    exact .kept fits
  · rw [sqlite3Realloc_grows pool h live notNull n positive (by omega) (by omega)]
    cases found : pool.take h (logSize n) with
    | none => exact .refused (by omega) (Or.inr found)
    | some taken =>
      obtain ⟨p,links,bytes⟩ := taken
      obtain ⟨notNullNew,-⟩ := pool.take_fresh h _ p links bytes consistent found
      simp only [notNullNew,ne_eq,not_false_eq_true,↓reduceIte]
      exact .moved (by omega) (by omega) found

end Results

end LuaKernel.Sqlite
