import Mathlib.Tactic.Ring
import LuaKernel.Memsys5Pool

/-! SQLite's allocation calls over memsys5 as the source runs them, with the control bytes for the
sizes and the status counters kept: `sqlite3_free`, `sqlite3_realloc` and `l_alloc` on top. Each
call returns what the same call over the pool returns, and leaves the same bytes and lists. -/
namespace LuaKernel.SqliteMalloc

open Bytes Grid Buddies Memsys5

def SQLITE_STATUS_MEMORY_USED : Nat := 0
def SQLITE_STATUS_MALLOC_SIZE : Nat := 5
def SQLITE_STATUS_MALLOC_COUNT : Nat := 9

structure Status where
  nowValue : Nat → Int
  mxValue : Nat → Int

/-- The common end of `sqlite3StatusAdd` and `sqlite3StatusSet`; the values are `int`. -/
def Status.record (op : Nat) (value : Int) (s : Status) : Status :=
  let value := value.bmod (2 ^ 32)
  { nowValue := Function.update s.nowValue op value
    mxValue := if s.mxValue op < value then Function.update s.mxValue op value else s.mxValue }

def sqlite3StatusAdd (op : Nat) (n : Int) (s : Status) : Status := s.record op (s.nowValue op + n)

def sqlite3StatusSet (op : Nat) (x : Int) (s : Status) : Status := s.record op x

structure State where
  mem5 : Mem5
  status : Status

section Calls

variable (g : Layout)

def mallocWithAlarm (n : Nat) (s : State) : Nat × State :=
  let nFull := memsys5Roundup g n
  let status := sqlite3StatusSet SQLITE_STATUS_MALLOC_SIZE n s.status
  let (p, mem5) := memsys5Malloc g nFull s.mem5
  if p ≠ 0 then
    let nFull := memsys5Size g p mem5
    let status := sqlite3StatusAdd SQLITE_STATUS_MEMORY_USED nFull status
    (p, ⟨mem5, sqlite3StatusAdd SQLITE_STATUS_MALLOC_COUNT 1 status⟩)
  else (p, ⟨mem5, status⟩)

def sqlite3Malloc (n : Nat) (s : State) : Nat × State :=
  if n = 0 ∨ 0x7fffff00 ≤ n then (0, s) else mallocWithAlarm g n s

def sqlite3Free (p : Nat) (s : State) : State :=
  if p = 0 then s else
  let status := sqlite3StatusAdd SQLITE_STATUS_MEMORY_USED (-memsys5Size g p s.mem5) s.status
  ⟨memsys5Free g p s.mem5, sqlite3StatusAdd SQLITE_STATUS_MALLOC_COUNT (-1) status⟩

def sqlite3Realloc (pOld nBytes : Nat) (s : State) : Nat × State :=
  if pOld = 0 then sqlite3Malloc g nBytes s else
  if nBytes = 0 then (0, sqlite3Free g pOld s) else
  if 0x7fffff00 ≤ nBytes then (0, s) else
  let nOld := memsys5Size g pOld s.mem5
  let nNew := memsys5Roundup g nBytes
  if nOld = nNew then (pOld, s) else
  let status := sqlite3StatusSet SQLITE_STATUS_MALLOC_SIZE nBytes s.status
  let (pNew, mem5) := memsys5Realloc g pOld nNew s.mem5
  if pNew ≠ 0 then
    let nNew := memsys5Size g pNew mem5
    (pNew, ⟨mem5, sqlite3StatusAdd SQLITE_STATUS_MEMORY_USED ((nNew : Int) - nOld) status⟩)
  else (pNew, ⟨mem5, status⟩)

def realloc (pOld : Nat) (n : Int) (s : State) : Nat × State :=
  let n := if n < 0 then 0 else n
  sqlite3Realloc g pOld n.toNat s

def lAlloc (ptr _osize nsize : Nat) (s : State) : Nat × State :=
  if nsize = 0 then (0, sqlite3Free g ptr s) else realloc g ptr (int32 nsize) s

/-- What SQLite calls for itself: `sqlite3_free`, and `sqlite3Realloc`, which is `sqlite3Malloc`
for a null pointer. -/
def request (ptr nsize : Nat) (s : State) : Nat × State :=
  if nsize = 0 then (0, sqlite3Free g ptr s) else sqlite3Realloc g ptr nsize s

/-- Below 2^31 the narrowing of `l_alloc` changes nothing. -/
theorem lAlloc_request (small : nsize < 2 ^ 31) (ptr osize : Nat) (s : State) :
    lAlloc g ptr osize nsize s = request g ptr nsize s := by
  have whole : (if int32 nsize < 0 then 0 else int32 nsize).toNat = nsize := by
    unfold int32
    split <;> split <;> omega
  rw [lAlloc,request,realloc,whole]

end Calls

def held (g : Layout) (live : Nat → Option Nat) : Nat → Option Nat := fun i => live (g.block i)

def bytesHeld (g : Layout) (live : Nat → Option Nat) : Nat :=
  g.szAtom * Books.weight (2 ^ ·) (held g live) g.nBlock

def blocksHeld (g : Layout) (live : Nat → Option Nat) : Nat :=
  Books.weight (fun _ => 1) (held g live) g.nBlock

structure Counted (g : Layout) (stats : Stats) (live : Nat → Option Nat) : Prop where
  bytes : stats.currentOut.toNat = bytesHeld g live
  blocks : stats.currentCount.toNat = blocksHeld g live

theorem toNat_add_small (a : UInt32) (x : Nat) (small : a.toNat + x < 2 ^ 32) :
    (a + UInt32.ofNat x).toNat = a.toNat + x := by
  rw [UInt32.toNat_add,UInt32.toNat_ofNat']
  omega

theorem toNat_sub_small (a : UInt32) (x : Nat) (less : x ≤ a.toNat) :
    (a - UInt32.ofNat x).toNat = a.toNat - x := by
  have := a.toNat_lt
  rw [UInt32.toNat_sub,UInt32.toNat_ofNat']
  omega

section Accounts

variable {g : Layout} (main : g.Main)

include main

theorem held_update (live : Nat → Option Nat) (i : Nat) (new : Option Nat) :
    held g (fun a => if a = g.block i then new else live a) =
      Function.update (held g live) i new := by
  funext j
  by_cases same : j = i
  · subst same
    simp [held]
  · have other : g.block j ≠ g.block i := fun equal => same (block_injective main equal)
    simp [held,same,other]

theorem held_out (agree : Agree g live b) : held g live = b.out :=
  funext fun i => agree.out main i

/-- What is held fits the pool, so no counter wraps around. -/
theorem held_bound (kept : Kept g m b) (agree : Agree g live b) :
    bytesHeld g live < 2 ^ 31 ∧ blocksHeld g live < 2 ^ 31 := by
  have total := kept.balanced.weight_le
  have fewer : Books.weight (fun _ => 1) b.out g.nBlock ≤ Books.weight (2 ^ ·) b.out g.nBlock :=
    Books.weight_mono two_pow b.out g.nBlock
  have size := main.size
  have product : g.szAtom * Books.weight (2 ^ ·) b.out g.nBlock ≤ g.szAtom * g.nBlock :=
    Nat.mul_le_mul_left _ total
  have small := nBlock_small main.toSound
  rw [Nat.mul_add,Nat.mul_comm] at size
  rw [bytesHeld,blocksHeld,held_out main agree]
  omega

theorem chunk_bytes (k : Nat) : Sqlite.chunk k = g.szAtom * 2 ^ k := by
  rw [Sqlite.chunk,main.bytes]

theorem held_add (absent : live (g.block i) = none) (inside : i < g.nBlock) (k : Nat) :
    let live' := fun a => if a = g.block i then some k else live a
    bytesHeld g live' = bytesHeld g live + Sqlite.chunk k ∧
      blocksHeld g live' = blocksHeld g live + 1 := by
  have none : held g live i = none := absent
  have bytes := Books.weight_update (2 ^ ·) (held g live) (some k) inside
  have blocks := Books.weight_update (fun _ => 1) (held g live) (some k) inside
  simp only [none,Option.elim_none,Nat.add_zero,Option.elim_some] at bytes blocks
  simp only [bytesHeld,blocksHeld,held_update main,bytes,blocks,chunk_bytes main,Nat.mul_add,
    and_self]

theorem held_remove (live_ : live (g.block i) = some k) (inside : i < g.nBlock) :
    let live' := fun a => if a = g.block i then none else live a
    bytesHeld g live' + Sqlite.chunk k = bytesHeld g live ∧
      blocksHeld g live' + 1 = blocksHeld g live := by
  have some_ : held g live i = some k := live_
  have bytes := Books.weight_update (2 ^ ·) (held g live) none inside
  have blocks := Books.weight_update (fun _ => 1) (held g live) none inside
  simp only [some_,Option.elim_none,Nat.add_zero,Option.elim_some] at bytes blocks
  simp only [bytesHeld,blocksHeld,held_update main,← bytes,← blocks,chunk_bytes main,Nat.mul_add,
    and_self]

end Accounts

structure Follows (g : Layout) (m : Mem5) (h : Sqlite.Heap (List Int)) : Prop where
  chunks : m.chunks = chunksOf h
  counted : Counted g m.stats h.live

theorem requested_counted (counted : Counted g stats live) (n : Nat) :
    Counted g (stats.requested n) live := by
  unfold Stats.requested
  split
  · exact ⟨counted.bytes,counted.blocks⟩
  · exact counted

theorem round_log (n : Nat) (request : n ≤ 0x40000000) :
    Sqlite.roundLoop n LOGMAX Sqlite.szAtom 0 =
      (Sqlite.chunk (Sqlite.logSize n), Sqlite.logSize n) := by
  obtain ⟨j,result,bound,enough,before⟩ := Sqlite.roundLoop_spec n LOGMAX 0
  have round := Sqlite.rounded n request
  have start : Sqlite.chunk 0 = Sqlite.szAtom := by decide
  rw [start] at result
  have fits : n ≤ Sqlite.chunk j := by
    rcases enough with fits | last
    · exact fits
    · have larger := Sqlite.chunk_mono (k := Sqlite.logMax) (l := j) (by rw [last]; decide)
      rw [Sqlite.chunk_logMax] at larger
      omega
  have same : Sqlite.logSize n = j := by
    have least := round.least j fits
    have enough := round.enough
    by_contra different
    have := before (Sqlite.logSize n) (Nat.zero_le _) (by omega)
    omega
  rw [result,same]

section Simulation

variable {g : Layout} (main : g.Main) {h : Sqlite.Heap (List Int)} {m : Mem5}
  (consistent : Consistent g h) (follows : Follows g m h)

include main consistent

/-- A chunk taken adds to what is held, and the sum still fits. -/
theorem taken_held (taken : (pool g main).take h k = some (p, links, bytes)) :
    bytesHeld g (Sqlite.Heap.checkout h p k).live = bytesHeld g h.live + Sqlite.chunk k ∧
    blocksHeld g (Sqlite.Heap.checkout h p k).live = blocksHeld g h.live + 1 ∧
    bytesHeld g h.live + Sqlite.chunk k < 2 ^ 31 ∧ blocksHeld g h.live + 1 < 2 ^ 31 := by
  obtain ⟨b,kept,agree⟩ := consistent
  obtain ⟨i,b',rfl,absent,kept',out,-⟩ := take_served main kept taken
  have place := kept'.balanced.tiling.inside i k (Or.inl (by simp [out]))
  have positive := two_pow k
  have none : h.live (g.block i) = none := (agree.out main i).trans absent
  obtain ⟨bytes,blocks⟩ := held_add main none (by omega) k
  have bound := held_bound main kept' (agree.checkout main out)
  simp only [bytes,blocks] at bound
  exact ⟨bytes,blocks,bound⟩

theorem held_small : bytesHeld g h.live < 2 ^ 31 ∧ blocksHeld g h.live < 2 ^ 31 := by
  obtain ⟨b,kept,agree⟩ := consistent
  exact held_bound main kept agree

theorem released_held (live : h.live p = some k) :
    bytesHeld g (h.release p).live + Sqlite.chunk k = bytesHeld g h.live ∧
    blocksHeld g (h.release p).live + 1 = blocksHeld g h.live := by
  obtain ⟨b,kept,agree⟩ := consistent
  obtain ⟨i,rfl,out⟩ := (agree p k).mp live
  have place := kept.balanced.tiling.inside i k (Or.inl out)
  have positive := two_pow k
  exact held_remove main live (by omega)

include follows

theorem mallocUnsafe_follows (n : Nat) :
    (memsys5MallocUnsafe g n m).1 = (Sqlite.memsys5MallocUnsafe (pool g main) n h).1 ∧
      Follows g (memsys5MallocUnsafe g n m).2
        (Sqlite.memsys5MallocUnsafe (pool g main) n h).2 := by
  have requested := requested_counted follows.counted n
  simp only [memsys5MallocUnsafe,Sqlite.memsys5MallocUnsafe]
  by_cases large : 0x40000000 < n
  · simp only [large,↓reduceIte]
    exact ⟨trivial,follows.chunks,requested⟩
  have round := round_log n (by omega)
  rw [← main.bytes] at round
  simp only [large,↓reduceIte,round]
  have found : (pool g main).take h (Sqlite.logSize n) =
      (checkOut g (Sqlite.logSize n) m.chunks).map
        fun r => (g.block r.1, r.2.aiFreelist, r.2.memory) := by rw [follows.chunks]; rfl
  cases choice : checkOut g (Sqlite.logSize n) m.chunks with
  | none =>
    rw [choice] at found
    simp only [found,Option.map_none]
    exact ⟨trivial,follows.chunks,requested⟩
  | some result =>
    obtain ⟨i,chunks⟩ := result
    rw [choice] at found
    simp only [found,Option.map_some]
    obtain ⟨bytes,blocks,small,few⟩ := taken_held main consistent found
    refine ⟨trivial,rfl,?_,?_⟩
    · refine (toNat_add_small _ _ ?_).trans ?_
      · rw [requested.bytes]
        omega
      · rw [requested.bytes]
        exact bytes.symm
    · refine (toNat_add_small _ 1 ?_).trans ?_
      · rw [requested.blocks]
        omega
      · rw [requested.blocks]
        exact blocks.symm

/-- The control byte gives the size of a chunk that is held. -/
theorem size_follows (live : h.live p = some k) : memsys5Size g p m = Sqlite.chunk k := by
  obtain ⟨b,kept,agree⟩ := consistent
  obtain ⟨i,rfl,out⟩ := (agree p k).mp live
  have notNull : g.block i ≠ 0 := by
    have := main.notNull
    simp only [Layout.block]
    omega
  rw [memsys5Size,if_neg notNull,indexOf_block main.toSound,follows.chunks,
    logOf_live main.toSound kept out,chunk_bytes main]

theorem freeUnsafe_follows (live : h.live p = some k) :
    Follows g (memsys5FreeUnsafe g p m) (Sqlite.memsys5FreeUnsafe (pool g main) p h) := by
  obtain ⟨bytes,blocks⟩ := released_held main consistent live
  obtain ⟨b,kept,agree⟩ := consistent
  obtain ⟨i,rfl,out⟩ := (agree p k).mp live
  have log : logOf g i m.chunks = k := by
    rw [follows.chunks]
    exact logOf_live main.toSound kept out
  simp only [memsys5FreeUnsafe,indexOf_block main.toSound,log]
  refine ⟨?_,?_,?_⟩
  · have given : (pool g main).give h (g.block i) = give g h (g.block i) := rfl
    rw [Sqlite.memsys5FreeUnsafe,given]
    simp only [give,live,indexOf_block main.toSound,chunksOf,Sqlite.Heap.release,follows.chunks]
  · have size : 2 ^ k * g.szAtom = Sqlite.chunk k := by rw [chunk_bytes main,Nat.mul_comm]
    refine (toNat_sub_small _ _ ?_).trans ?_
    · rw [follows.counted.bytes,size]
      omega
    · rw [follows.counted.bytes,size]
      exact Nat.sub_eq_of_eq_add bytes.symm
  · refine (toNat_sub_small _ 1 ?_).trans ?_
    · rw [follows.counted.blocks]
      omega
    · rw [follows.counted.blocks]
      exact Nat.sub_eq_of_eq_add blocks.symm

omit main consistent in
theorem memcpy_follows (p pPrior n : Nat) :
    Follows g (memcpy p pPrior n m) (Sqlite.memcpy p pPrior n h) := by
  refine ⟨?_,follows.counted.bytes,follows.counted.blocks⟩
  have bytes : m.chunks.memory = h.bytes := congrArg Chunks.memory follows.chunks
  have copied : put m.chunks.memory p (copy m.chunks.memory pPrior n) =
      (Sqlite.memcpy p pPrior n h).bytes := by
    funext a
    rw [bytes,put_copy]
    rfl
  rw [memcpy,copied,follows.chunks]
  rfl

omit consistent follows in
/-- A chunk taken for a move is not the old one, which stays held until it is freed. -/
theorem memsys5Realloc_follows (valid : LuaAlloc.Valid (pool g main) h) (follows : Follows g m h)
    (live : h.live p = some k) (n : Nat) :
    (memsys5Realloc g p n m).1 = (Sqlite.memsys5Realloc (pool g main) p n h).1 ∧
      Follows g (memsys5Realloc g p n m).2 (Sqlite.memsys5Realloc (pool g main) p n h).2 := by
  have size := size_follows main valid.consistent follows live
  obtain ⟨same,follows'⟩ := mallocUnsafe_follows main valid.consistent follows n
  simp only [memsys5Realloc,Sqlite.memsys5Realloc,size,Sqlite.size_live h live]
  by_cases nothing : n = 0
  · simp only [nothing,↓reduceIte]
    exact ⟨trivial,follows⟩
  by_cases fits : n ≤ Sqlite.chunk k
  · simp only [nothing,fits,↓reduceIte]
    exact ⟨trivial,follows⟩
  simp only [nothing,fits,↓reduceIte,same]
  by_cases null : (Sqlite.memsys5MallocUnsafe (pool g main) n h).1 = 0
  · simp only [null,ne_eq,not_true_eq_false,↓reduceIte]
    exact ⟨trivial,follows'⟩
  simp only [null,ne_eq,not_false_eq_true,↓reduceIte,true_and]
  have copied := memcpy_follows follows'
    (Sqlite.memsys5MallocUnsafe (pool g main) n h).1 p (Sqlite.chunk k)
  simp only [Sqlite.memsys5MallocUnsafe] at null copied ⊢
  by_cases large : 0x40000000 < n
  · simp [large] at null
  simp only [large,↓reduceIte] at null copied ⊢
  cases taken : (pool g main).take h (Sqlite.logSize n) with
  | none => simp [taken] at null
  | some result =>
    obtain ⟨q,links,bytes⟩ := result
    simp only [taken] at copied ⊢
    have round := Sqlite.rounded n (by omega)
    have enough := round.enough
    have filled : LuaAlloc.Valid (pool g main) (Sqlite.memcpy q p (Sqlite.chunk k)
        (Sqlite.Heap.checkout ⟨h.live, bytes, links⟩ q (Sqlite.logSize n))) :=
      LuaAlloc.filled_valid valid taken round.bound (by omega)
    exact freeUnsafe_follows main filled.consistent copied
      (LuaAlloc.filled_live valid taken live p (Sqlite.chunk k))

end Simulation

/-- The state runs over the heap `h` of the layers above, with every counter right. -/
structure Tracks (g : Layout) (main : g.Main) (s : State) (h : Sqlite.Heap (List Int)) : Prop where
  valid : LuaAlloc.Valid (pool g main) h
  follows : Follows g s.mem5 h
  used : s.status.nowValue SQLITE_STATUS_MEMORY_USED = bytesHeld g h.live
  blocks : s.status.nowValue SQLITE_STATUS_MALLOC_COUNT = blocksHeld g h.live

theorem add_self (op : Nat) (n : Int) (s : Status) :
    (sqlite3StatusAdd op n s).nowValue op = (s.nowValue op + n).bmod (2 ^ 32) :=
  Function.update_self _ _ _

theorem add_other (apart : other ≠ op) (n : Int) (s : Status) :
    (sqlite3StatusAdd op n s).nowValue other = s.nowValue other :=
  Function.update_of_ne apart _ _

theorem set_other (apart : other ≠ op) (x : Int) (s : Status) :
    (sqlite3StatusSet op x s).nowValue other = s.nowValue other :=
  Function.update_of_ne apart _ _

/-- A value that the total keeps below 2^31 does not wrap. -/
theorem bmod_total {value : Int} {total : Nat} (same : value = total) (small : total < 2 ^ 31) :
    value.bmod (2 ^ 32) = total := by
  rw [same,Int.bmod_eq_of_le] <;> omega

theorem ops_apart : SQLITE_STATUS_MEMORY_USED ≠ SQLITE_STATUS_MALLOC_SIZE ∧
    SQLITE_STATUS_MEMORY_USED ≠ SQLITE_STATUS_MALLOC_COUNT ∧
    SQLITE_STATUS_MALLOC_COUNT ≠ SQLITE_STATUS_MALLOC_SIZE ∧
    SQLITE_STATUS_MALLOC_COUNT ≠ SQLITE_STATUS_MEMORY_USED := by decide

section Layers

variable {g : Layout} {main : g.Main} {s : State} {h : Sqlite.Heap (List Int)}
  (tracks : Tracks g main s h)

theorem roundup_same (main : g.Main) (n : Nat) :
    memsys5Roundup g n = Sqlite.memsys5Roundup n := by
  by_cases large : 0x40000000 < n
  · simp [memsys5Roundup,Sqlite.memsys5Roundup,large]
  · have round := round_log n (by omega)
    rw [← main.bytes] at round
    simp only [memsys5Roundup,Sqlite.memsys5Roundup,large,↓reduceIte,round]
    exact (Sqlite.rounded n (by omega)).size.symm

/-- How the pool's `memsys5Malloc` of a rounded request can end. -/
inductive Allocated (pool : Sqlite.Pool (List Int)) (h : Sqlite.Heap (List Int)) :
    Nat × Sqlite.Heap (List Int) → Prop
  | refused : Allocated pool h (0, h)
  | served (notNull : p ≠ 0) (taken : pool.take h k = some (p, links, bytes)) :
      Allocated pool h (p, Sqlite.Heap.checkout ⟨h.live, bytes, links⟩ p k)

theorem malloc_ends (pool : Sqlite.Pool (List Int)) (consistent : pool.Consistent h) (n : Nat) :
    Allocated pool h (Sqlite.memsys5Malloc pool (Sqlite.memsys5Roundup n) h) := by
  by_cases large : 0x40000000 < n
  · simp only [Sqlite.memsys5Malloc,Sqlite.memsys5Roundup,large,↓reduceIte,Nat.lt_irrefl]
    exact .refused
  rw [Sqlite.malloc_rounded pool h n (by omega)]
  cases taken : pool.take h (Sqlite.logSize n) with
  | none => exact .refused
  | some result =>
    obtain ⟨p,links,bytes⟩ := result
    exact .served (pool.take_fresh h _ p links bytes consistent taken).1 taken

inductive Reallocated (pool : Sqlite.Pool (List Int)) (h : Sqlite.Heap (List Int)) (p k : Nat) :
    Nat × Sqlite.Heap (List Int) → Prop
  | refused : Reallocated pool h p k (0, h)
  | kept : Reallocated pool h p k (p, h)
  | moved (taken : pool.take h j = some (q, links, bytes)) (bound : j ≤ Sqlite.logMax)
      (larger : Sqlite.chunk k ≤ Sqlite.chunk j) :
      Reallocated pool h p k (q, Sqlite.memsys5FreeUnsafe pool p (Sqlite.memcpy q p
        (Sqlite.chunk k) (Sqlite.Heap.checkout ⟨h.live, bytes, links⟩ q j)))

theorem realloc_ends (pool : Sqlite.Pool (List Int)) (consistent : pool.Consistent h)
    (live : h.live p = some k) (n : Nat) :
    Reallocated pool h p k (Sqlite.memsys5Realloc pool p n h) := by
  simp only [Sqlite.memsys5Realloc,Sqlite.memsys5MallocUnsafe,Sqlite.size_live h live]
  by_cases nothing : n = 0
  · simp only [nothing,↓reduceIte]
    exact .refused
  by_cases fits : n ≤ Sqlite.chunk k
  · simp only [nothing,fits,↓reduceIte]
    exact .kept
  by_cases large : 0x40000000 < n
  · simp only [nothing,fits,large,↓reduceIte,ne_eq,not_true_eq_false]
    exact .refused
  simp only [nothing,fits,large,↓reduceIte]
  cases taken : pool.take h (Sqlite.logSize n) with
  | none =>
    simp only [ne_eq,not_true_eq_false,↓reduceIte]
    exact .refused
  | some result =>
    obtain ⟨q,links,bytes⟩ := result
    have round := Sqlite.rounded n (by omega)
    have enough := round.enough
    have notNull := (pool.take_fresh h _ q links bytes consistent taken).1
    simp only [ne_eq,notNull,not_false_eq_true,↓reduceIte]
    exact .moved taken round.bound (by omega)

include tracks

theorem malloc_tracks (n : Nat) :
    (sqlite3Malloc g n s).1 = (Sqlite.sqlite3Malloc (pool g main) n h).1 ∧
      Tracks g main (sqlite3Malloc g n s).2 (Sqlite.sqlite3Malloc (pool g main) n h).2 := by
  have valid := LuaAlloc.sqlite3Malloc_valid tracks.valid n
  by_cases outside : n = 0 ∨ 0x7fffff00 ≤ n
  · simp only [sqlite3Malloc,Sqlite.sqlite3Malloc,outside,↓reduceIte]
    exact ⟨trivial,tracks⟩
  simp only [sqlite3Malloc,Sqlite.sqlite3Malloc,outside,↓reduceIte] at valid ⊢
  simp only [mallocWithAlarm,roundup_same main]
  have same : (memsys5Malloc g (Sqlite.memsys5Roundup n) s.mem5).1 =
      (Sqlite.memsys5Malloc (pool g main) (Sqlite.memsys5Roundup n) h).1 ∧
      Follows g (memsys5Malloc g (Sqlite.memsys5Roundup n) s.mem5).2
        (Sqlite.memsys5Malloc (pool g main) (Sqlite.memsys5Roundup n) h).2 := by
    by_cases some : 0 < Sqlite.memsys5Roundup n
    · simp only [memsys5Malloc,Sqlite.memsys5Malloc,some,↓reduceIte]
      exact mallocUnsafe_follows main tracks.valid.consistent tracks.follows _
    · simp only [memsys5Malloc,Sqlite.memsys5Malloc,some,↓reduceIte]
      exact ⟨trivial,tracks.follows⟩
  have ends := malloc_ends (pool g main) tracks.valid.consistent n
  generalize Sqlite.memsys5Malloc (pool g main) (Sqlite.memsys5Roundup n) h = result
    at valid same ends ⊢
  obtain ⟨pointer,follows⟩ := same
  cases ends with
  | refused =>
    simp only [pointer,ne_eq,not_true_eq_false,↓reduceIte]
    exact ⟨trivial,valid,follows,tracks.used,tracks.blocks⟩
  | @served p k links bytes notNull taken =>
    have size := size_follows main valid.consistent follows
      (by simp [Sqlite.Heap.checkout] : (Sqlite.Heap.checkout ⟨h.live, bytes, links⟩ p k).live p =
        some k)
    obtain ⟨more,another,-⟩ := taken_held main tracks.valid.consistent taken
    have used := tracks.used
    have blocks := tracks.blocks
    simp only [pointer,ne_eq,notNull,not_false_eq_true,↓reduceIte,size,true_and]
    have small := held_small main valid.consistent
    refine ⟨valid,follows,?_,?_⟩
    · rw [add_other ops_apart.2.1,add_self,set_other ops_apart.1,used]
      exact bmod_total (by exact_mod_cast more.symm) small.1
    · rw [add_self,add_other ops_apart.2.2.2,set_other ops_apart.2.2.1,blocks]
      exact bmod_total (by exact_mod_cast another.symm) small.2

theorem free_tracks (live : h.live p = some k) :
    Tracks g main (sqlite3Free g p s) (Sqlite.sqlite3Free (pool g main) p h) := by
  have notNull := LuaAlloc.live_notNull tracks.valid live
  have valid := LuaAlloc.free_valid tracks.valid live
  have follows := freeUnsafe_follows main tracks.valid.consistent tracks.follows live
  have size := size_follows main tracks.valid.consistent tracks.follows live
  obtain ⟨less,fewer⟩ := released_held main tracks.valid.consistent live
  have used := tracks.used
  have blocks := tracks.blocks
  simp only [sqlite3Free,Sqlite.sqlite3Free,notNull,↓reduceIte,memsys5Free,size]
  have small := held_small main valid.consistent
  refine ⟨valid,follows,?_,?_⟩
  · rw [add_other ops_apart.2.1,add_self,used,← less,Nat.cast_add,Int.add_neg_cancel_right]
    exact bmod_total rfl small.1
  · rw [add_self,add_other ops_apart.2.2.2,blocks,← fewer,Nat.cast_add,Nat.cast_one,
      Int.add_neg_cancel_right]
    exact bmod_total rfl small.2

/-- A move: the new chunk in place of the old one. -/
theorem moved_held (live : h.live p = some k)
    (taken : (pool g main).take h j = some (q, links, bytes)) (bound : j ≤ Sqlite.logMax)
    (larger : Sqlite.chunk k ≤ Sqlite.chunk j)
    (after : h' = Sqlite.memsys5FreeUnsafe (pool g main) p (Sqlite.memcpy q p (Sqlite.chunk k)
      (Sqlite.Heap.checkout ⟨h.live, bytes, links⟩ q j))) :
    h'.live q = some j ∧
      bytesHeld g h'.live + Sqlite.chunk k = bytesHeld g h.live + Sqlite.chunk j ∧
      blocksHeld g h'.live = blocksHeld g h.live := by
  have different := LuaAlloc.taken_ne tracks.valid live taken
  obtain ⟨more,another,-⟩ := taken_held main tracks.valid.consistent taken
  obtain ⟨less,fewer⟩ := released_held main
    (LuaAlloc.filled_valid tracks.valid taken bound larger).consistent
    (LuaAlloc.filled_live tracks.valid taken live p (Sqlite.chunk k))
  subst after
  refine ⟨?_,less.trans more,Nat.add_right_cancel (fewer.trans another)⟩
  simp [Sqlite.memsys5FreeUnsafe,Sqlite.memcpy,Sqlite.Heap.release,Sqlite.Heap.checkout,different]

theorem realloc_tracks (live : h.live p = some k) (n : Nat) :
    (sqlite3Realloc g p n s).1 = (Sqlite.sqlite3Realloc (pool g main) p n h).1 ∧
      Tracks g main (sqlite3Realloc g p n s).2 (Sqlite.sqlite3Realloc (pool g main) p n h).2 := by
  have notNull := LuaAlloc.live_notNull tracks.valid live
  have valid := LuaAlloc.sqlite3Realloc_valid tracks.valid live n
  have size := size_follows main tracks.valid.consistent tracks.follows live
  simp only [sqlite3Realloc,Sqlite.sqlite3Realloc,notNull,↓reduceIte,size,
    Sqlite.size_live h live,roundup_same main] at valid ⊢
  by_cases nothing : n = 0
  · simp only [nothing,↓reduceIte]
    exact ⟨trivial,free_tracks tracks live⟩
  by_cases limit : 0x7fffff00 ≤ n
  · simp only [nothing,limit,↓reduceIte]
    exact ⟨trivial,tracks⟩
  by_cases equal : Sqlite.chunk k = Sqlite.memsys5Roundup n
  · simp only [nothing,limit,equal,↓reduceIte]
    exact ⟨trivial,tracks⟩
  simp only [nothing,limit,equal,↓reduceIte] at valid ⊢
  obtain ⟨pointer,follows⟩ := memsys5Realloc_follows main tracks.valid tracks.follows live
    (Sqlite.memsys5Roundup n)
  have ends := realloc_ends (pool g main) tracks.valid.consistent live (Sqlite.memsys5Roundup n)
  have used := tracks.used
  have blocks := tracks.blocks
  generalize Sqlite.memsys5Realloc (pool g main) p (Sqlite.memsys5Roundup n) h = result
    at valid pointer follows ends ⊢
  cases ends with
  | refused =>
    simp only [pointer,ne_eq,not_true_eq_false,↓reduceIte]
    exact ⟨trivial,valid,follows,used,blocks⟩
  | kept =>
    have same := size_follows main valid.consistent follows live
    simp only [pointer,ne_eq,notNull,not_false_eq_true,↓reduceIte,same]
    have small := held_small main valid.consistent
    refine ⟨trivial,valid,follows,?_,?_⟩
    · rw [add_self,set_other ops_apart.1,used,Int.sub_self,Int.add_zero]
      exact bmod_total rfl small.1
    · rw [add_other ops_apart.2.2.2,set_other ops_apart.2.2.1,blocks]
  | @moved j q links bytes taken bound larger =>
    have fresh := (pool g main).take_fresh h j q links bytes tracks.valid.consistent taken
    obtain ⟨new,more,same⟩ := moved_held tracks live taken bound larger rfl
    have grown := size_follows main valid.consistent follows new
    simp only [pointer,ne_eq,fresh.1,not_false_eq_true,↓reduceIte,grown,true_and]
    have small := held_small main valid.consistent
    refine ⟨valid,follows,?_,?_⟩
    · rw [add_self,set_other ops_apart.1,used]
      exact bmod_total (by omega) small.1
    · rw [add_other ops_apart.2.2.2,set_other ops_apart.2.2.1,blocks,same]

def poolRequest (pool : Sqlite.Pool (List Int)) (ptr nsize : Nat) (h : Sqlite.Heap (List Int)) :
    Nat × Sqlite.Heap (List Int) :=
  if nsize = 0 then (0, Sqlite.sqlite3Free pool ptr h) else Sqlite.sqlite3Realloc pool ptr nsize h

theorem request_tracks (held : ptr = 0 ∨ ∃ k, h.live ptr = some k) (nsize : Nat) :
    (request g ptr nsize s).1 = (poolRequest (pool g main) ptr nsize h).1 ∧
      Tracks g main (request g ptr nsize s).2 (poolRequest (pool g main) ptr nsize h).2 := by
  by_cases nothing : nsize = 0
  · simp only [request,poolRequest,nothing,↓reduceIte,true_and]
    rcases held with rfl | ⟨k,live⟩
    · simpa [sqlite3Free,Sqlite.sqlite3Free] using tracks
    · exact free_tracks tracks live
  · simp only [request,poolRequest,nothing,↓reduceIte]
    rcases held with rfl | ⟨k,live⟩
    · simpa [sqlite3Realloc,Sqlite.sqlite3Realloc] using malloc_tracks tracks _
    · exact realloc_tracks tracks live _

end Layers

end LuaKernel.SqliteMalloc
