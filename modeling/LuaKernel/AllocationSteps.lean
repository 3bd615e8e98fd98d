import LuaKernel.Runs
import LuaKernel.SqliteMalloc

/-! The allocator in use: from `memsys5Init` on, Lua calls `l_alloc` and SQLite its own functions,
each for blocks it owns, and they store into them. To both the blocks are separate arrays of bytes;
`Spec` says what a call may do to them, and each call over the memory SQLite was given refines
it. -/
namespace LuaKernel.SqliteMalloc

open Bytes Grid Buddies Memsys5 Runs HeapConfig

inductive Caller
  | lua
  | sqlite
  deriving DecidableEq

inductive Call
  | alloc (caller : Caller) (ptr nsize : Nat)
  | store (ptr offset : Nat) (byte : UInt8)

/-- The library, the size last asked for of each block that is owned, and by whom. -/
structure System where
  lib : State
  owned : Nat → Option Nat
  owner : Nat → Caller

def setOwned (owned : Nat → Option Nat) (p : Nat) (size : Option Nat) : Nat → Option Nat :=
  Function.update owned p size

def owns (owned : Nat → Option Nat) (ptr nsize p : Nat) : Nat → Option Nat :=
  if nsize = 0 then setOwned owned ptr none
  else if p = 0 then owned
  else setOwned (setOwned owned ptr none) p (some nsize)

def poke (address : Nat) (byte : UInt8) (s : State) : State :=
  let chunks := s.mem5.chunks
  let memory := Function.update chunks.memory address byte
  { s with mem5 := { s.mem5 with chunks := { chunks with memory := memory } } }

def Caller.call (g : Layout) (ptr osize nsize : Nat) (s : State) : Caller → Nat × State
  | .lua => lAlloc g ptr osize nsize s
  | .sqlite => request g ptr nsize s

/-- Each passes blocks it owns and stores inside them. Lua passes the size it asked for, and asks
for less than 2^31 bytes. -/
def step (g : Layout) (s : System) : Call → Option System
  | .alloc caller ptr nsize =>
    if (ptr = 0 ∨ (s.owned ptr).isSome ∧ s.owner ptr = caller) ∧
        (caller = .lua → nsize < 2 ^ 31) then
      let (p, lib) := caller.call g ptr ((s.owned ptr).getD 0) nsize s.lib
      some ⟨lib, owns s.owned ptr nsize p, Function.update s.owner p caller⟩
    else none
  | .store ptr offset byte =>
    if offset < (s.owned ptr).getD 0 then
      some { s with lib := poke (ptr + offset) byte s.lib }
    else none

/-- `mem5` and `sqlite3Stat` are static, so they start as zeros; the heap may hold anything. -/
def boot (c : Config) (memory : Memory) : System where
  lib := ⟨memsys5Init c ⟨⟨memory, List.replicate (LOGMAX + 1) 0⟩, ⟨0, 0, 0, 0, 0, 0, 0, 0⟩⟩,
    ⟨fun _ => 0, fun _ => 0⟩⟩
  owned := fun _ => none
  owner := fun _ => .sqlite

abbrev Blocks := Nat → Option (List UInt8)

def contents (s : System) : Blocks := fun p =>
  (s.owned p).map fun size => copy s.lib.mem5.chunks.memory p size

inductive Spec (blocks : Blocks) : Call → Blocks → Prop
  | freed (ptr : Nat) : Spec blocks (.alloc caller ptr 0) (Function.update blocks ptr none)
  | refused (positive : 0 < nsize)
      (grows : ∀ old, blocks ptr = some old → old.length < nsize) :
      Spec blocks (.alloc caller ptr nsize) blocks
  | served {bytes : List UInt8} (positive : 0 < nsize) (notNull : p ≠ 0)
      (fresh : p = ptr ∨ blocks p = none) (size : bytes.length = nsize)
      (kept : ∀ old, blocks ptr = some old → bytes.take old.length = old.take nsize) :
      Spec blocks (.alloc caller ptr nsize)
        (Function.update (Function.update blocks ptr none) p (some bytes))
  | stored (block : blocks ptr = some bytes) (inside : offset < bytes.length) (byte : UInt8) :
      Spec blocks (.store ptr offset byte)
        (Function.update blocks ptr (some (bytes.set offset byte)))

section Ends

variable (pool : Sqlite.Pool (List Int)) {h : Sqlite.Heap (List Int)}

inductive Ends (h : Sqlite.Heap (List Int)) (ptr nsize : Nat) :
    Nat × Sqlite.Heap (List Int) → Prop
  | nothing (null : ptr = 0) (none : nsize = 0) : Ends h ptr nsize (0, h)
  | freed (live : h.live ptr = some k) (none : nsize = 0) :
      Ends h ptr nsize (0, Sqlite.memsys5FreeUnsafe pool ptr h)
  | refused (positive : 0 < nsize) (grows : ∀ k, h.live ptr = some k → Sqlite.chunk k < nsize) :
      Ends h ptr nsize (0, h)
  | new (null : ptr = 0) (positive : 0 < nsize) (enough : nsize ≤ Sqlite.chunk j)
      (taken : pool.take h j = some (p, links, bytes)) :
      Ends h ptr nsize (p, Sqlite.Heap.checkout ⟨h.live, bytes, links⟩ p j)
  | kept (live : h.live ptr = some k) (positive : 0 < nsize) (fits : nsize ≤ Sqlite.chunk k) :
      Ends h ptr nsize (ptr, h)
  | moved (live : h.live ptr = some k) (grows : Sqlite.chunk k < nsize)
      (enough : nsize ≤ Sqlite.chunk j) (bound : j ≤ Sqlite.logMax)
      (taken : pool.take h j = some (p, links, bytes)) :
      Ends h ptr nsize (p, Sqlite.memsys5FreeUnsafe pool ptr (Sqlite.memcpy p ptr
        (Sqlite.chunk k) (Sqlite.Heap.checkout ⟨h.live, bytes, links⟩ p j)))

variable {pool} (valid : LuaAlloc.Valid pool h)

include valid

theorem request_ends (held : ptr = 0 ∨ ∃ k, h.live ptr = some k) (nsize : Nat) :
    Ends pool h ptr nsize (poolRequest pool ptr nsize h) := by
  by_cases none : nsize = 0
  · simp only [poolRequest,none,↓reduceIte]
    rcases held with rfl | ⟨k,live⟩
    · simp only [Sqlite.sqlite3Free,↓reduceIte]
      exact .nothing rfl rfl
    · simp only [Sqlite.sqlite3Free,LuaAlloc.live_notNull valid live,↓reduceIte]
      exact .freed live rfl
  rw [poolRequest,if_neg none]
  rcases held with rfl | ⟨k,live⟩
  · have allocation : Sqlite.sqlite3Realloc pool 0 nsize h = Sqlite.sqlite3Malloc pool nsize h := by
      simp [Sqlite.sqlite3Realloc]
    have noBlock : ∀ k, h.live 0 = some k → Sqlite.chunk k < nsize := fun k live =>
      absurd rfl (LuaAlloc.live_notNull valid live)
    rw [allocation]
    by_cases refused : nsize = 0 ∨ 0x40000000 < nsize ∨ pool.take h (Sqlite.logSize nsize) = .none
    · rw [Sqlite.sqlite3Malloc_refused pool h nsize refused]
      exact .refused (by omega) noBlock
    · simp only [not_or] at refused
      obtain ⟨-,request,taken⟩ := refused
      obtain ⟨⟨p,links,bytes⟩,found⟩ := Option.ne_none_iff_exists'.mp taken
      rw [Sqlite.sqlite3Malloc_served pool h nsize (by omega) (by omega) found]
      exact .new rfl (by omega) (Sqlite.rounded nsize (by omega)).enough found
  · have ends := Sqlite.sqlite3Realloc_ends pool h live (LuaAlloc.live_notNull valid live)
      (valid.separate.bounded ptr k live) valid.consistent nsize
    generalize Sqlite.sqlite3Realloc pool ptr nsize h = result at ends
    cases ends with
    | freed nothing => exact absurd nothing none
    | kept fits => exact .kept live (by omega) fits
    | moved grows request taken =>
      have round := Sqlite.rounded nsize request
      exact .moved live grows round.enough round.bound taken
    | refused grows =>
      refine .refused (by omega) fun l also => ?_
      rw [live] at also
      exact Option.some.inj also ▸ grows

/-- A block other than the one passed is held as before, with its bytes. -/
theorem ends_others (ends : Ends pool h ptr nsize r) (other : q ≠ ptr) (live : h.live q = some l) :
    r.2.live q = some l ∧ ∀ i, i < Sqlite.chunk l → r.2.bytes (q + i) = h.bytes (q + i) := by
  cases ends with
  | nothing | refused | kept => exact ⟨live,fun _ _ => rfl⟩
  | freed =>
    have still : (h.release ptr).live q = some l := by simp [Sqlite.Heap.release,other,live]
    exact ⟨still,fun i inside => pool.give_keeps h ptr valid.consistent q l i still inside⟩
  | new _ _ _ taken =>
    have different := LuaAlloc.taken_ne valid live taken
    exact ⟨by simp [Sqlite.Heap.checkout,different.symm,live],fun i inside =>
      pool.take_keeps h _ _ _ _ valid.consistent taken q l i live inside⟩
  | @moved k j p links bytes old grows enough bound taken =>
    have larger : Sqlite.chunk k ≤ Sqlite.chunk j := by omega
    have filled : LuaAlloc.Valid pool (Sqlite.memcpy p ptr (Sqlite.chunk k)
        (Sqlite.Heap.checkout ⟨h.live, bytes, links⟩ p j)) :=
      LuaAlloc.filled_valid valid taken bound larger
    have still : (Sqlite.Heap.release (Sqlite.memcpy p ptr (Sqlite.chunk k)
        (Sqlite.Heap.checkout ⟨h.live, bytes, links⟩ p j)) ptr).live q = some l := by
      simp only [Sqlite.Heap.release,if_neg other]
      exact LuaAlloc.filled_live valid taken live ptr (Sqlite.chunk k)
    refine ⟨still,fun i inside => ?_⟩
    have freed := pool.give_keeps _ ptr filled.consistent q l i still inside
    have apart := (pool.take_fresh h j p links bytes valid.consistent taken).2 q l live
    have taken' := pool.take_keeps h j p links bytes valid.consistent taken q l i live inside
    refine freed.trans ?_
    simp only [Sqlite.memcpy,Sqlite.Heap.checkout,Sqlite.Heap.release]
    rw [if_neg (by omega)]
    exact taken'

/-- A block was returned: it is new or the one passed, large enough, and starts with the bytes of
the one passed, which is given up. -/
structure Served (h : Sqlite.Heap (List Int)) (ptr nsize : Nat)
    (r : Nat × Sqlite.Heap (List Int)) : Prop where
  notNull : r.1 ≠ 0
  fresh : r.1 = ptr ∨ h.live r.1 = none
  room : ∃ j, r.2.live r.1 = some j ∧ nsize ≤ Sqlite.chunk j
  live : ∀ q, q ≠ r.1 → r.2.live q = if q = ptr then none else h.live q
  carried : ∀ k i, h.live ptr = some k → i < Sqlite.chunk k → i < nsize →
    r.2.bytes (r.1 + i) = h.bytes (ptr + i)

theorem taken_absent (taken : pool.take h j = some (p, links, bytes)) : h.live p = none := by
  cases live : h.live p with
  | none => rfl
  | some k => exact absurd rfl (LuaAlloc.taken_ne valid live taken)

theorem live_null (q : Nat) : h.live q = if q = 0 then none else h.live q := by
  split_ifs with null
  · rw [null]
    exact valid.separate.nonNull
  · rfl

theorem ends_kinds (ends : Ends pool h ptr nsize r) :
    (nsize = 0 ∧ r.1 = 0 ∧ ∀ q, r.2.live q = if q = ptr then none else h.live q) ∨
    (0 < nsize ∧ r = (0, h) ∧ ∀ k, h.live ptr = some k → Sqlite.chunk k < nsize) ∨
    (0 < nsize ∧ Served h ptr nsize r) := by
  cases ends with
  | nothing null none => exact Or.inl ⟨none,rfl,null ▸ live_null valid⟩
  | freed live none => exact Or.inl ⟨none,rfl,fun q => rfl⟩
  | refused positive grows => exact Or.inr (Or.inl ⟨positive,rfl,grows⟩)
  | @new j p links bytes null positive enough taken =>
    subst null
    have fresh := pool.take_fresh h j p links bytes valid.consistent taken
    refine Or.inr (Or.inr ⟨positive,fresh.1,Or.inr (taken_absent valid taken),
      ⟨j,by simp [Sqlite.Heap.checkout],enough⟩,fun q other => ?_,
      fun k i live => absurd rfl (LuaAlloc.live_notNull valid live)⟩)
    simp only [Sqlite.Heap.checkout,if_neg other]
    exact live_null valid q
  | @kept k live positive fits =>
    refine Or.inr (Or.inr ⟨positive,LuaAlloc.live_notNull valid live,Or.inl rfl,⟨k,live,fits⟩,
      fun q other => ?_,fun _ _ _ _ _ => rfl⟩)
    rw [if_neg other]
  | @moved k j p links bytes live grows enough bound taken =>
    have larger : Sqlite.chunk k ≤ Sqlite.chunk j := by omega
    have fresh := pool.take_fresh h j p links bytes valid.consistent taken
    have different := LuaAlloc.taken_ne valid live taken
    refine Or.inr (Or.inr ⟨by omega,fresh.1,Or.inr (taken_absent valid taken),⟨j,?_,enough⟩,
      fun q other => ?_,fun l i also inside _ => ?_⟩)
    · simp [Sqlite.memsys5FreeUnsafe,Sqlite.memcpy,Sqlite.Heap.release,Sqlite.Heap.checkout,
        different]
    · have other : q ≠ p := other
      simp [Sqlite.memsys5FreeUnsafe,Sqlite.memcpy,Sqlite.Heap.release,Sqlite.Heap.checkout,other]
    · rw [live] at also
      cases also
      exact LuaAlloc.moved_bytes valid live taken bound larger i inside

end Ends

/-- The blocks that are owned are those held of the pool, and none is smaller than was asked. -/
structure Serving (g : Layout) (main : g.Main) (s : System) (h : Sqlite.Heap (List Int)) :
    Prop where
  tracks : Tracks g main s.lib h
  owned : ∀ p, (s.owned p).isSome = (h.live p).isSome
  fits : ∀ p n k, s.owned p = some n → h.live p = some k → n ≤ Sqlite.chunk k

section Steps

variable {g : Layout} {main : g.Main} {s : System} {h : Sqlite.Heap (List Int)}
  (serving : Serving g main s h)

include serving

theorem Serving.memory : s.lib.mem5.chunks.memory = h.bytes :=
  congrArg Chunks.memory serving.tracks.follows.chunks

theorem Serving.live (owned : s.owned p = some n) :
    ∃ k, h.live p = some k ∧ n ≤ Sqlite.chunk k := by
  have same := serving.owned p
  rw [owned] at same
  obtain ⟨k,live⟩ := Option.isSome_iff_exists.mp same.symm
  exact ⟨k,live,serving.fits p n k owned live⟩

theorem Serving.absent (live : h.live p = none) : s.owned p = none := by
  have same := serving.owned p
  rw [live] at same
  exact Option.isSome_eq_false_iff.mp same |> Option.isNone_iff_eq_none.mp

/-- A block that is owned as before and whose bytes are kept has its contents. -/
theorem contents_other (serving' : Serving g main s' h') (same : s'.owned q = s.owned q)
    (bytes : ∀ l, h.live q = some l → ∀ i, i < Sqlite.chunk l →
      h'.bytes (q + i) = h.bytes (q + i)) : contents s' q = contents s q := by
  simp only [contents,same,serving.memory,serving'.memory]
  cases owned : s.owned q with
  | none => rfl
  | some n =>
    obtain ⟨k,live,fits⟩ := serving.live owned
    exact congrArg some (copy_shift n fun i below => bytes k live i (by omega))

/-- `nsize` of 0: the block passed is given up, the others keep their bytes. -/
theorem freed_serves (tracks : Tracks g main lib h') (ptr : Nat)
    (live : ∀ q, h'.live q = if q = ptr then none else h.live q)
    (others : ∀ q l, q ≠ ptr → h.live q = some l → ∀ i, i < Sqlite.chunk l →
      h'.bytes (q + i) = h.bytes (q + i)) :
    Serving g main ⟨lib, setOwned s.owned ptr none, owner⟩ h' ∧
      Spec (contents s) (.alloc caller ptr 0)
        (contents ⟨lib, setOwned s.owned ptr none, owner⟩) := by
  have serving' : Serving g main ⟨lib, setOwned s.owned ptr none, owner⟩ h' := by
    refine ⟨tracks,fun p => ?_,fun p n k owned found => ?_⟩
    · by_cases here : p = ptr
      · simp [setOwned,live,here]
      · simpa [setOwned,live,here] using serving.owned p
    · by_cases here : p = ptr
      · simp [setOwned,here] at owned
      · simp only [live,here,↓reduceIte] at found
        exact serving.fits p n k (by simpa [setOwned,here] using owned) found
  have after : contents ⟨lib, setOwned s.owned ptr none, owner⟩ =
      Function.update (contents s) ptr none := by
    funext q
    by_cases here : q = ptr
    · simp [contents,setOwned,here]
    · rw [Function.update_of_ne here]
      exact contents_other serving serving' (by simp [setOwned,here]) fun l => others q l here
  exact ⟨serving',after ▸ .freed ptr⟩

/-- A block is returned: the books. -/
theorem served_serving (tracks : Tracks g main s'.lib r.2) (served : Served h ptr nsize r)
    (books : s'.owned = setOwned (setOwned s.owned ptr none) r.1 (some nsize)) :
    Serving g main s' r.2 := by
  obtain ⟨j,room,enough⟩ := served.room
  refine ⟨tracks,fun q => ?_,fun q n k owned found => ?_⟩
  · by_cases here : q = r.1
    · simp [books,setOwned,here,room]
    · by_cases old : q = ptr
      · subst old
        simp [books,setOwned,here,served.live q here]
      · simpa [books,setOwned,here,old,served.live q here] using serving.owned q
  · by_cases here : q = r.1
    · rw [here,room] at found
      simp only [books,setOwned,here,Function.update_self] at owned
      cases owned
      cases found
      exact enough
    · rw [books,setOwned,Function.update_of_ne here] at owned
      rw [served.live q here] at found
      split_ifs at found with old
      rw [setOwned,Function.update_of_ne old] at owned
      exact serving.fits q n k owned found

/-- The bytes. -/
theorem served_contents (tracks : Tracks g main s'.lib r.2) (served : Served h ptr nsize r)
    (books : s'.owned = setOwned (setOwned s.owned ptr none) r.1 (some nsize))
    (others : ∀ q l, q ≠ ptr → h.live q = some l → ∀ i, i < Sqlite.chunk l →
      r.2.bytes (q + i) = h.bytes (q + i)) :
    contents s' = Function.update (Function.update (contents s) ptr none) r.1
      (some (copy r.2.bytes r.1 nsize)) := by
  have serving' := served_serving serving tracks served books
  funext q
  by_cases here : q = r.1
  · subst here
    simp only [contents,books,setOwned,Function.update_self,serving'.memory,Option.map_some]
  · rw [Function.update_of_ne here]
    by_cases old : q = ptr
    · subst old
      simp only [contents,books,setOwned,Function.update_self,Function.update_of_ne here,
        Option.map_none]
    · rw [Function.update_of_ne old]
      refine contents_other serving serving' ?_ fun l => others q l old
      rw [books,setOwned,Function.update_of_ne here,setOwned,Function.update_of_ne old]

theorem served_serves (tracks : Tracks g main s'.lib r.2) (positive : 0 < nsize)
    (served : Served h ptr nsize r)
    (books : s'.owned = setOwned (setOwned s.owned ptr none) r.1 (some nsize))
    (others : ∀ q l, q ≠ ptr → h.live q = some l → ∀ i, i < Sqlite.chunk l →
      r.2.bytes (q + i) = h.bytes (q + i)) :
    Serving g main s' r.2 ∧ Spec (contents s) (.alloc caller ptr nsize) (contents s') := by
  refine ⟨served_serving serving tracks served books,?_⟩
  rw [served_contents serving tracks served books others]
  refine .served positive served.notNull ?_ (copy_length _ _ _) ?_
  · refine served.fresh.imp id fun absent => ?_
    rw [contents,serving.absent absent]
    rfl
  · intro old block
    obtain ⟨n,owned,rfl⟩ := Option.map_eq_some_iff.mp block
    obtain ⟨k,held,fits⟩ := serving.live owned
    rw [copy_length,copy_take,copy_take,Nat.min_comm n nsize,serving.memory]
    exact copy_shift _ fun i below => served.carried k i held (by omega) (by omega)

omit serving in
theorem call_request (g : Layout) (caller : Caller) (small : caller = .lua → nsize < 2 ^ 31)
    (ptr osize : Nat) (s : State) : caller.call g ptr osize nsize s = request g ptr nsize s := by
  cases caller with
  | lua => exact lAlloc_request g (small rfl) ptr osize s
  | sqlite => rfl

/-- A call for a block that is owned, or for a new one. -/
theorem alloc_serves (held : ptr = 0 ∨ (s.owned ptr).isSome) (caller : Caller) (nsize : Nat)
    (owner : Nat → Caller) :
    let result := request g ptr nsize s.lib
    ∃ h', Ends (pool g main) h ptr nsize (result.1, h') ∧
      Serving g main ⟨result.2, owns s.owned ptr nsize result.1, owner⟩ h' ∧
      Spec (contents s) (.alloc caller ptr nsize)
        (contents ⟨result.2, owns s.owned ptr nsize result.1, owner⟩) := by
  have passed : ptr = 0 ∨ ∃ k, h.live ptr = some k := by
    refine held.imp id fun owned => ?_
    obtain ⟨n,owned⟩ := Option.isSome_iff_exists.mp owned
    exact (serving.live owned).imp fun _ => And.left
  have valid := serving.tracks.valid
  obtain ⟨pointer,tracks⟩ := request_tracks serving.tracks passed nsize
  have ends := request_ends valid passed nsize
  generalize poolRequest (pool g main) ptr nsize h = r at pointer tracks ends
  have others : ∀ q l, q ≠ ptr → h.live q = some l → ∀ i, i < Sqlite.chunk l →
      r.2.bytes (q + i) = h.bytes (q + i) := fun q l other live =>
    (ends_others valid ends other live).2
  intro result
  refine ⟨r.2,pointer ▸ ends,?_⟩
  rw [show result.1 = r.1 from pointer]
  rcases ends_kinds valid ends with ⟨none,null,live⟩ | ⟨positive,refused,grows⟩ |
    ⟨positive,served⟩
  · subst none
    simp only [owns,↓reduceIte]
    exact freed_serves serving tracks ptr live others
  · subst refused
    simp only [owns,Nat.ne_of_gt positive,↓reduceIte]
    have serving' : Serving g main ⟨result.2, s.owned, owner⟩ h :=
      ⟨tracks,serving.owned,serving.fits⟩
    have same : contents ⟨result.2, s.owned, owner⟩ = contents s := by
      funext q
      exact contents_other serving serving' rfl fun _ _ _ _ => rfl
    refine ⟨serving',same ▸ .refused positive fun old block => ?_⟩
    obtain ⟨n,owned,rfl⟩ := Option.map_eq_some_iff.mp block
    obtain ⟨k,live,fits⟩ := serving.live owned
    have := grows k live
    rw [copy_length]
    omega
  · simp only [owns,Nat.ne_of_gt positive,served.notNull,↓reduceIte]
    exact served_serves serving tracks positive served rfl others

theorem store_serves (inside : offset < (s.owned ptr).getD 0) (byte : UInt8) :
    let next : System := { s with lib := poke (ptr + offset) byte s.lib }
    Serving g main next { h with bytes := Function.update h.bytes (ptr + offset) byte } ∧
      Spec (contents s) (.store ptr offset byte) (contents next) := by
  obtain ⟨n,owned⟩ : ∃ n, s.owned ptr = some n := by
    cases owned : s.owned ptr with
    | none => simp [owned] at inside
    | some n => exact ⟨n,rfl⟩
  rw [owned,Option.getD_some] at inside
  obtain ⟨k,live,fits⟩ := serving.live owned
  have chunks : (poke (ptr + offset) byte s.lib).mem5.chunks =
      chunksOf { h with bytes := Function.update h.bytes (ptr + offset) byte } := by
    simp only [poke,serving.tracks.follows.chunks,chunksOf]
  have valid : LuaAlloc.Valid (pool g main)
      { h with bytes := Function.update h.bytes (ptr + offset) byte } := by
    obtain ⟨⟨null,bounded,apart⟩,consistent⟩ := serving.tracks.valid
    refine ⟨⟨null,bounded,apart⟩,(pool g main).write_consistent h _ consistent fun a outside => ?_⟩
    have := outside ptr k live
    exact Function.update_of_ne (by omega) _ _
  intro next
  have serving' : Serving g main next
      { h with bytes := Function.update h.bytes (ptr + offset) byte } :=
    ⟨⟨valid,⟨chunks,serving.tracks.follows.counted.bytes,serving.tracks.follows.counted.blocks⟩,
      serving.tracks.used,serving.tracks.blocks⟩,serving.owned,serving.fits⟩
  have block : contents s ptr = some (copy s.lib.mem5.chunks.memory ptr n) := by
    rw [contents,owned]
    rfl
  have after : contents next = Function.update (contents s) ptr
      (some ((copy s.lib.mem5.chunks.memory ptr n).set offset byte)) := by
    funext q
    by_cases here : q = ptr
    · subst here
      rw [Function.update_self,← copy_update _ _ _ inside byte]
      simp only [contents,next,owned,poke,Option.map_some]
    · rw [Function.update_of_ne here]
      refine contents_other serving serving' rfl fun l other i below => ?_
      have := serving.tracks.valid.separate.apart q ptr l k other live here
      exact Function.update_of_ne (by omega) _ _
  exact ⟨serving',after ▸ .stored block (by rw [copy_length]; exact inside) byte⟩

theorem step_serves (moved : step g s call = some next) :
    ∃ h', Serving g main next h' ∧ Spec (contents s) call (contents next) := by
  cases call with
  | alloc caller ptr nsize =>
    simp only [step,Option.ite_none_right_eq_some,Option.some.injEq] at moved
    obtain ⟨⟨held,small⟩,rfl⟩ := moved
    rw [call_request g caller small]
    obtain ⟨h',-,done⟩ := alloc_serves serving (held.imp id And.left) caller nsize _
    exact ⟨h',done⟩
  | store ptr offset byte =>
    simp only [step,Option.ite_none_right_eq_some,Option.some.injEq] at moved
    obtain ⟨inside,rfl⟩ := moved
    exact ⟨_,store_serves serving inside byte⟩

end Steps

end LuaKernel.SqliteMalloc
