import Mathlib.Algebra.BigOperators.Ring.List
import LuaKernel.AllocationSteps

/-! Whole runs of the allocator, from `memsys5Init` over a heap that may hold anything. -/
namespace LuaKernel.SqliteMalloc

open Bytes Grid Buddies Memsys5 Runs HeapConfig

section Outside

variable {g : Layout} {main : g.Main} {h : Sqlite.Heap (List Int)}
  (outside : a < g.zPool ∨ g.aCtrl + g.nBlock ≤ a)

include outside

theorem live_outside (valid : LuaAlloc.Valid (pool g main) h) (live : h.live p = some k) :
    a < p ∨ p + Sqlite.chunk k ≤ a := by
  obtain ⟨-,b,kept,agree⟩ := valid
  obtain ⟨i,rfl,out⟩ := (agree p k).mp live
  have place := kept.balanced.tiling.inside i k (Or.inl out)
  have before : g.block (i + 2 ^ k) ≤ g.aCtrl := block_mono g place
  rw [block_chunk main]
  refine outside.imp (fun below => ?_) fun above => by omega
  simp only [Layout.block]
  omega

theorem free_outside (valid : LuaAlloc.Valid (pool g main) h) (live : h.live p = some k) :
    (Sqlite.memsys5FreeUnsafe (pool g main) p h).bytes a = h.bytes a := by
  obtain ⟨-,b,kept,agree⟩ := valid
  obtain ⟨j,rfl,out⟩ := (agree p k).mp live
  obtain ⟨b',-,-,keeps⟩ := giveBack_gives main.toSound kept out
  have given : (pool g main).give h (g.block j) = give g h (g.block j) := rfl
  rw [Sqlite.memsys5FreeUnsafe,given]
  simp only [give,live,indexOf_block main.toSound,Sqlite.Heap.release]
  exact keeps.outside a outside

theorem take_outside (valid : LuaAlloc.Valid (pool g main) h)
    (taken : (pool g main).take h k = some (p, links, bytes)) : bytes a = h.bytes a := by
  obtain ⟨-,b,kept,-⟩ := valid
  obtain ⟨i,b',-,-,-,-,keeps⟩ := take_served main kept taken
  exact keeps.outside a outside

theorem ends_outside (valid : LuaAlloc.Valid (pool g main) h)
    (ends : Ends (pool g main) h ptr nsize r) : r.2.bytes a = h.bytes a := by
  cases ends with
  | nothing | refused | kept => rfl
  | freed live => exact free_outside outside valid live
  | new _ _ _ taken => exact take_outside outside valid taken
  | @moved k j p links bytes live grows enough bound taken =>
    have larger : Sqlite.chunk k ≤ Sqlite.chunk j := by omega
    have filled : LuaAlloc.Valid (pool g main) (Sqlite.memcpy p ptr (Sqlite.chunk k)
        (Sqlite.Heap.checkout ⟨h.live, bytes, links⟩ p j)) :=
      LuaAlloc.filled_valid valid taken bound larger
    have new : (Sqlite.memcpy p ptr (Sqlite.chunk k) (Sqlite.Heap.checkout
        ⟨h.live, bytes, links⟩ p j)).live p = some j := by
      simp [Sqlite.memcpy,Sqlite.Heap.checkout]
    have apart := live_outside outside filled new
    refine (free_outside outside filled (LuaAlloc.filled_live valid taken live ..)).trans ?_
    simp only [Sqlite.memcpy,Sqlite.Heap.checkout]
    rw [if_neg (by omega),take_outside outside valid taken]

end Outside

/-- A heap with an address and a length that SQLite can use, cut into atoms of 64 bytes. -/
structure Usable (c : Config) : Prop where
  notNull : 0 < c.pHeap
  lower : 0 ≤ c.nHeap
  upper : c.nHeap < 2 ^ 31
  atom : (layout c).szAtom = Sqlite.szAtom

theorem Usable.main (usable : Usable c) : (layout c).Main :=
  ⟨layout_sound c usable.notNull usable.lower usable.upper,usable.atom⟩

/-- The heap `main` gives is usable unless its length was cut down to a negative one. -/
theorem main_usable (image : Image) (heapEnd : Nat)
    (length : 0 ≤ (mainHeap image.heapStart heapEnd).nHeap) :
    Usable (mainHeap image.heapStart heapEnd) := by
  refine ⟨Nat.lt_of_lt_of_le (by decide) image.above,length,?_,layout_main _ _⟩
  simp only [mainHeap,sqlite3ConfigHeap,int32]
  split <;> omega

/-- Where the memory differs from the one the heap was made of, it is the heap's. -/
def Confined (c : Config) (before : Memory) (s : System) : Prop :=
  ∀ a : Nat, a < c.pHeap ∨ c.pHeap + c.nHeap ≤ a → s.lib.mem5.chunks.memory a = before a

section Start

variable {c : Config} (usable : Usable c)

include usable

/-- Outside the heap is outside the pool and its control bytes. -/
theorem Usable.outside {a : Nat} (outside : a < c.pHeap ∨ c.pHeap + c.nHeap ≤ a) :
    a < (layout c).zPool ∨ (layout c).aCtrl + (layout c).nBlock ≤ a := by
  have within := layout_within c usable.lower usable.upper
  rw [Nat.mul_succ] at within
  refine outside.imp id fun above => ?_
  have start : (layout c).zPool = c.pHeap := rfl
  simp only [Layout.aCtrl,Layout.block,start]
  omega

theorem boot_serves (memory : Memory) :
    (∃ h, Serving (layout c) usable.main (boot c memory) h) ∧
      Confined c memory (boot c memory) := by
  obtain ⟨b,kept,none,-,keeps⟩ := memsys5Init_cuts c usable.notNull usable.lower usable.upper
    ⟨⟨memory, List.replicate (LOGMAX + 1) 0⟩, ⟨0, 0, 0, 0, 0, 0, 0, 0⟩⟩ (by simp)
  let chunks := (boot c memory).lib.mem5.chunks
  have bytes : bytesHeld (layout c) (fun _ => Option.none) = 0 := by
    have nothing : Books.weight (2 ^ ·) (held (layout c) fun _ => Option.none)
        (layout c).nBlock = 0 := Books.weight_zero _ (fun _ => rfl) _
    rw [bytesHeld,nothing,Nat.mul_zero]
  have blocks : blocksHeld (layout c) (fun _ => Option.none) = 0 :=
    Books.weight_zero _ (fun _ => rfl) _
  refine ⟨⟨⟨fun _ => Option.none, chunks.memory, chunks.aiFreelist⟩,⟨⟨⟨?_,?_,?_⟩,?_⟩,?_,?_,?_⟩,
    ?_,?_⟩,?_⟩
  · rfl
  · intro p k live
    contradiction
  · intro p q k l live
    contradiction
  · refine ⟨b,kept,fun p k => ?_⟩
    simp [none]
  · exact ⟨rfl,bytes.symm,blocks.symm⟩
  · exact congrArg Int.ofNat bytes.symm
  · exact congrArg Int.ofNat blocks.symm
  · intro p
    rfl
  · intro p n k owned
    contradiction
  · exact fun a outside => keeps.outside a (usable.outside outside)

theorem step_confined (serving : Serving (layout c) usable.main s h)
    (confined : Confined c memory s) (moved : step (layout c) s call = some next) :
    Confined c memory next := by
  intro a outside
  rw [← confined a outside]
  have beyond := usable.outside outside
  cases call with
  | alloc caller ptr nsize =>
    simp only [step,Option.ite_none_right_eq_some,Option.some.injEq] at moved
    obtain ⟨⟨held,small⟩,rfl⟩ := moved
    rw [call_request _ caller small]
    obtain ⟨h',ends,serving',-⟩ := alloc_serves serving (held.imp id And.left)
      caller nsize s.owner
    have same : h'.bytes a = h.bytes a := ends_outside beyond serving.tracks.valid ends
    rw [← serving.memory,← serving'.memory] at same
    exact same
  | store ptr offset byte =>
    simp only [step,Option.ite_none_right_eq_some,Option.some.injEq] at moved
    obtain ⟨inside,rfl⟩ := moved
    obtain ⟨n,owned⟩ : ∃ n, s.owned ptr = some n := by
      cases owned : s.owned ptr with
      | none => simp [owned] at inside
      | some n => exact ⟨n,rfl⟩
    rw [owned,Option.getD_some] at inside
    obtain ⟨k,live,fits⟩ := serving.live owned
    have apart := live_outside beyond serving.tracks.valid live
    exact Function.update_of_ne (by omega) _ _

theorem reached (memory : Memory) (ran : run (step (layout c)) (boot c memory) calls = some s) :
    (∃ h, Serving (layout c) usable.main s h) ∧ Confined c memory s :=
  run_invariant (P := fun s => (∃ h, Serving (layout c) usable.main s h) ∧ Confined c memory s)
    (fun _ _ _ ⟨⟨_,serving⟩,confined⟩ moved =>
      ⟨(step_serves serving moved).imp fun _ => And.left,
        step_confined usable serving confined moved⟩) ran (boot_serves usable memory)

end Start

section States

variable {g : Layout} {main : g.Main} {s : System} {h : Sqlite.Heap (List Int)}
  (serving : Serving g main s h)

include serving

/-- A block that is owned is a block of the pool, with a chunk of its own. -/
theorem Serving.block (owned : (s.owned p).isSome) : ∃ i k, p = g.block i ∧ h.live p = some k ∧
    memsys5Size g p s.lib.mem5 = Sqlite.chunk k ∧ i + 2 ^ k ≤ g.nBlock ∧ 2 ^ k ∣ i := by
  obtain ⟨k,live⟩ := Option.isSome_iff_exists.mp (serving.owned p ▸ owned)
  have size := size_follows main serving.tracks.valid.consistent serving.tracks.follows live
  obtain ⟨b,kept,agree⟩ := serving.tracks.valid.consistent
  obtain ⟨i,rfl,out⟩ := (agree p k).mp live
  have tile : (i, k) ∈ b.tiles := Or.inl out
  exact ⟨i,k,rfl,live,size,kept.balanced.tiling.inside i k tile,
    kept.balanced.tiling.aligned i k tile⟩

def blocksOwned (g : Layout) (s : System) : List Nat :=
  ((List.range g.nBlock).map g.block).filter fun p => (s.owned p).isSome

theorem Serving.listed : p ∈ blocksOwned g s ↔ (s.owned p).isSome := by
  simp only [blocksOwned,List.mem_filter,List.mem_map,List.mem_range,and_iff_right_iff_imp]
  intro owned
  obtain ⟨i,k,same,-,-,inside,-⟩ := serving.block owned
  have := two_pow k
  exact ⟨i,by omega,same.symm⟩

theorem Serving.sums : bytesHeld g h.live =
      ((blocksOwned g s).map fun p => memsys5Size g p s.lib.mem5).sum ∧
    blocksHeld g h.live = (blocksOwned g s).length := by
  have same : (fun i => (held g h.live i).isSome) = fun i => (s.owned (g.block i)).isSome :=
    funext fun i => (serving.owned (g.block i)).symm
  simp only [bytesHeld,blocksHeld,blocksOwned,Books.weight_sum,same,List.filter_map,
    List.map_map,List.length_map,Function.comp_def]
  constructor
  · rw [← List.sum_map_mul_left]
    refine congrArg List.sum (List.map_congr_left fun i member => ?_)
    obtain ⟨-,owned⟩ := List.mem_filter.mp member
    obtain ⟨j,k,-,live,size,-⟩ := serving.block owned
    rw [size,held,live,Option.elim_some,chunk_bytes main]
  · have one : ∀ i ∈ (List.range g.nBlock).filter fun i => (s.owned (g.block i)).isSome,
        (held g h.live i).elim 0 (fun _ => 1) = 1 := by
      intro i member
      obtain ⟨-,owned⟩ := List.mem_filter.mp member
      obtain ⟨j,k,-,live,-⟩ := serving.block owned
      rw [held,live,Option.elim_some]
    rw [List.map_congr_left one]
    simp

/-- A new block is refused when the request is too large or no chunk is found. -/
theorem Serving.null_refused (positive : 0 < n) (small : n < 2 ^ 31) :
    (lAlloc g 0 0 n s.lib).1 = 0 ↔
      0x40000000 < n ∨ take g h (Sqlite.logSize n) = none := by
  have valid := serving.tracks.valid
  rw [lAlloc_request g small,(request_tracks serving.tracks (Or.inl rfl) n).1,poolRequest,
    if_neg (Nat.ne_of_gt positive)]
  simp only [Sqlite.sqlite3Realloc,↓reduceIte]
  have found : (pool g main).take h (Sqlite.logSize n) = take g h (Sqlite.logSize n) := rfl
  by_cases refused : 0x40000000 < n ∨ take g h (Sqlite.logSize n) = none
  · rw [Sqlite.sqlite3Malloc_refused (pool g main) h n (Or.inr refused)]
    exact iff_of_true rfl refused
  · simp only [not_or] at refused
    obtain ⟨⟨p,links,bytes⟩,taken⟩ := Option.ne_none_iff_exists'.mp refused.2
    rw [Sqlite.sqlite3Malloc_served (pool g main) h n positive (by omega) taken]
    refine iff_of_false ((pool g main).take_fresh h _ p links bytes valid.consistent taken).1 ?_
    simp [refused]

/-- An aligned run of `size` bytes of the pool that no owned block's chunk meets. -/
def Room (g : Layout) (s : System) (size : Nat) : Prop :=
  ∃ a, size ∣ a ∧ a + size ≤ g.nBlock * g.szAtom ∧ ∀ p, (s.owned p).isSome →
    p + memsys5Size g p s.lib.mem5 ≤ g.zPool + a ∨ g.zPool + a + size ≤ p

omit serving in
theorem block_le (main : g.Main) : g.block i ≤ g.block j ↔ i ≤ j := by
  have positive : 0 < g.szAtom := main.bytes ▸ (by decide : 0 < Sqlite.szAtom)
  rw [Layout.block,Layout.block,Nat.add_le_add_iff_left,Nat.mul_le_mul_right_iff positive]

theorem Serving.room_blocks (agree : Agree g h.live b) (k : Nat) :
    Room g s (Sqlite.chunk k) ↔ ∃ a, 2 ^ k ∣ a ∧ a + 2 ^ k ≤ g.nBlock ∧
      ∀ i l, b.out i = some l → i + 2 ^ l ≤ a ∨ a + 2 ^ k ≤ i := by
  have positive : 0 < g.szAtom := main.bytes ▸ (by decide : 0 < Sqlite.szAtom)
  have apart : ∀ a, (∀ p, (s.owned p).isSome → p + memsys5Size g p s.lib.mem5 ≤ g.block a ∨
        g.block (a + 2 ^ k) ≤ p) ↔
      ∀ i l, b.out i = some l → i + 2 ^ l ≤ a ∨ a + 2 ^ k ≤ i := by
    intro a
    constructor
    · intro away i l out
      have live := (agree (g.block i) l).mpr ⟨i,rfl,out⟩
      have size := size_follows main serving.tracks.valid.consistent serving.tracks.follows live
      have := away (g.block i) (by rw [serving.owned,live]; rfl)
      rwa [size,block_chunk main,block_le main,block_le main] at this
    · intro away p owned
      obtain ⟨i,l,rfl,live,size,-⟩ := serving.block owned
      rw [size,block_chunk main,block_le main,block_le main]
      exact away i l ((agree.out main i).symm.trans live)
  have run : ∀ a, g.zPool + g.szAtom * a = g.block a := fun a => by
    rw [Layout.block,Nat.mul_comm]
  constructor
  · rintro ⟨a,⟨q,rfl⟩,inside,away⟩
    rw [chunk_bytes main,Nat.mul_assoc,← Nat.mul_add,Nat.mul_comm g.nBlock] at inside
    rw [chunk_bytes main,Nat.mul_assoc,Nat.add_assoc,← Nat.mul_add,run,run] at away
    exact ⟨2 ^ k * q,⟨q,rfl⟩,Nat.le_of_mul_le_mul_left inside positive,(apart _).mp away⟩
  · rintro ⟨a,⟨q,rfl⟩,inside,away⟩
    refine ⟨g.szAtom * (2 ^ k * q),⟨q,?_⟩,?_,?_⟩
    · rw [chunk_bytes main,Nat.mul_assoc]
    · rw [chunk_bytes main,← Nat.mul_add,Nat.mul_comm g.nBlock]
      exact Nat.mul_le_mul_left _ inside
    · rw [chunk_bytes main,Nat.add_assoc,← Nat.mul_add,run,run]
      exact (apart _).mpr away

theorem Serving.room_iff (k : Nat) : Room g s (Sqlite.chunk k) ↔ take g h k ≠ none := by
  obtain ⟨b,kept,agree⟩ := serving.tracks.valid.consistent
  rw [serving.room_blocks agree]
  constructor
  · intro room missing
    obtain ⟨l,longer,listed⟩ := (kept.balanced.room_iff k).mpr room
    have ends := checkOut_ends main.toSound kept k
    rw [take,Option.map_eq_none_iff] at missing
    rw [missing] at ends
    cases ends with
    | refused empty => exact listed (empty l longer)
  · intro found
    obtain ⟨⟨p,links,bytes⟩,taken⟩ := Option.ne_none_iff_exists'.mp found
    obtain ⟨i,b',-,absent,kept',out,-⟩ := take_served main kept taken
    have tile : (i, k) ∈ b'.tiles := Or.inl (by simp [out])
    refine ⟨i,kept'.balanced.tiling.aligned i k tile,kept'.balanced.tiling.inside i k tile,?_⟩
    intro j l live
    have different : j ≠ i := fun same => by simp [same ▸ live] at absent
    have old : (j, l) ∈ b'.tiles := Or.inl (by simp [out,different,live])
    exact kept'.balanced.tiling.apart j l i k old tile
      fun same => different (Prod.mk.inj same).1

/-- With nothing owned the free lists hold the digits of the number of blocks. -/
theorem Serving.heads (nothing : ∀ p, s.owned p = none) :
    s.lib.mem5.chunks.aiFreelist.length = LOGMAX + 1 ∧ ∀ k, head k s.lib.mem5.chunks =
      if g.nBlock / 2 ^ k % 2 = 1 then ((g.nBlock / 2 ^ (k + 1) * 2 ^ (k + 1) : Nat) : Int)
      else -1 := by
  obtain ⟨b,kept,agree⟩ := serving.tracks.valid.consistent
  have out : ∀ i, b.out i = none := fun i => by
    have same := serving.owned (g.block i)
    rw [nothing,agree.out main] at same
    exact Option.isNone_iff_eq_none.mp (Option.isSome_eq_false_iff.mp same.symm)
  have free := kept.balanced.all_free out
  rw [serving.tracks.follows.chunks]
  refine ⟨kept.rep.length,fun k => ?_⟩
  have member : ∀ i, i ∈ b.free k ↔ (i, k) ∈ digits g.nBlock := fun i => free ▸ Iff.rfl
  have chain := kept.rep.lists.chain k
  cases list : b.free k with
  | nil =>
    rw [list] at chain
    have clear : ¬g.nBlock / 2 ^ k % 2 = 1 := fun digit => by
      have := (member (g.nBlock / 2 ^ (k + 1) * 2 ^ (k + 1))).mpr ⟨digit,rfl⟩
      simp [list] at this
    rw [if_neg clear]
    exact chain
  | cons i rest =>
    rw [list] at chain
    obtain ⟨digit,start⟩ := (member i).mp (by simp [list])
    rw [if_pos digit,← start]
    exact chain.1

theorem Serving.restored (nothing : ∀ p, s.owned p = none) (serving' : Serving g main s' h')
    (nothing' : ∀ p, s'.owned p = none) :
    s.lib.mem5.chunks.aiFreelist = s'.lib.mem5.chunks.aiFreelist := by
  obtain ⟨number,heads⟩ := serving.heads nothing
  obtain ⟨number',heads'⟩ := serving'.heads nothing'
  refine List.ext_getElem (number.trans number'.symm) fun k inside inside' => ?_
  have equal := (heads k).trans (heads' k).symm
  simpa [head,List.getD,inside,inside'] using equal

end States

theorem binLoop_congr (same : m.aiFreelist = m'.aiFreelist) (fuel k : Nat) :
    binLoop m fuel k = binLoop m' fuel k := by
  induction fuel generalizing k with
  | zero => rfl
  | succ fuel ih =>
    have heads : head k m = head k m' := by rw [head,head,same]
    by_cases next : k ≤ LOGMAX ∧ head k m < 0
    · rw [binLoop,binLoop,if_pos next,if_pos (heads ▸ next),ih]
    · rw [binLoop,binLoop,if_neg next,if_neg (heads ▸ next)]

theorem checkOut_congr (g : Layout) (same : m.aiFreelist = m'.aiFreelist) (k : Nat) :
    (checkOut g k m).map Prod.fst = (checkOut g k m').map Prod.fst := by
  simp only [checkOut,binLoop_congr same]
  generalize binLoop m' (LOGMAX + 1) k = iBin
  by_cases none : LOGMAX < iBin
  · rw [if_pos none,if_pos none]
  · simp only [if_neg none,Option.map_some,head,same]

theorem mallocUnsafe_pointer (g : Layout) (n : Nat) (m : Mem5) :
    (memsys5MallocUnsafe g n m).1 = if 0x40000000 < n then 0 else
      (((checkOut g (Sqlite.roundLoop n LOGMAX g.szAtom 0).2 m.chunks).map Prod.fst).map
        g.block).getD 0 := by
  simp only [memsys5MallocUnsafe]
  split
  · rfl
  · cases checkOut g (Sqlite.roundLoop n LOGMAX g.szAtom 0).2 m.chunks <;> rfl

theorem mallocWithAlarm_pointer (g : Layout) (n : Nat) (s : State) :
    (mallocWithAlarm g n s).1 = (memsys5Malloc g (memsys5Roundup g n) s.mem5).1 := by
  simp only [mallocWithAlarm]
  split <;> rfl

theorem null_congr (g : Layout) (same : s.mem5.chunks.aiFreelist = s'.mem5.chunks.aiFreelist)
    (n : Nat) : (lAlloc g 0 0 n s).1 = (lAlloc g 0 0 n s').1 := by
  have pointers : ∀ n, (memsys5Malloc g n s.mem5).1 = (memsys5Malloc g n s'.mem5).1 := by
    intro n
    simp only [memsys5Malloc]
    split
    · rw [mallocUnsafe_pointer,mallocUnsafe_pointer,checkOut_congr g same]
    · rfl
  have allocation : ∀ n, (sqlite3Malloc g n s).1 = (sqlite3Malloc g n s').1 := by
    intro n
    simp only [sqlite3Malloc]
    split
    · rfl
    · rw [mallocWithAlarm_pointer,mallocWithAlarm_pointer,pointers]
  simp only [lAlloc,realloc,sqlite3Realloc,↓reduceIte]
  split
  · rfl
  · exact allocation _

def Reaches (c : Config) (memory : Memory) (calls : List Call) (s : System) : Prop :=
  run (step (layout c)) (boot c memory) calls = some s

/-- To Lua and SQLite their blocks are separate arrays of bytes, in every state and under every
call. -/
theorem blocks_separate (image : Image) (heapEnd : Nat) (c : Config)
    (given : c = mainHeap image.heapStart heapEnd) (length : 0 ≤ c.nHeap) (memory : Memory)
    (calls : List Call) (s : System) (ran : Reaches c memory calls s) (call : Call) (next : System)
    (moved : step (layout c) s call = some next) : Spec (contents s) call (contents next) := by
  subst given
  obtain ⟨⟨h,serving⟩,-⟩ := reached (main_usable image heapEnd length) memory ran
  obtain ⟨-,-,done⟩ := step_serves serving moved
  exact done

theorem new_enabled (g : Layout) (s : System) (caller : Caller) (small : n < 2 ^ 31) :
    ∃ next, step g s (.alloc caller 0 n) = some next :=
  ⟨_,if_pos ⟨Or.inl rfl,fun _ => small⟩⟩

def sampleHeap : Config := mainHeap sampleImage.heapStart 0x3fff0000

def sampleCalls : List Call := [.alloc .sqlite 0 4096, .alloc .lua 0 100]

theorem sample_reaches : ∃ s, Reaches sampleHeap (fun _ => 0) sampleCalls s := by
  obtain ⟨middle,first⟩ := new_enabled (n := 4096) (layout sampleHeap)
    (boot sampleHeap fun _ => 0) .sqlite (by decide)
  obtain ⟨next,second⟩ := new_enabled (n := 100) (layout sampleHeap) middle .lua (by decide)
  exact ⟨next,(run_cons _ _ _ _).mpr ⟨middle,first,(run_cons _ _ _ _).mpr ⟨next,second,rfl⟩⟩⟩

theorem two_blocks_separate : ∃ s next, Reaches sampleHeap (fun _ => 0) sampleCalls s ∧
    step (layout sampleHeap) s (.alloc .lua 0 200) = some next ∧
    Spec (contents s) (.alloc .lua 0 200) (contents next) := by
  obtain ⟨s,ran⟩ := sample_reaches
  obtain ⟨next,moved⟩ := new_enabled (n := 200) (layout sampleHeap) s .lua (by decide)
  exact ⟨s,next,ran,moved,
    blocks_separate sampleImage 0x3fff0000 _ rfl (by decide) _ _ s ran _ next moved⟩

/-- No byte outside the heap is written, and every block owned is an aligned chunk of the pool, in
front of the control bytes, that is large enough and meets no other. -/
theorem blocks_placed (image : Image) (heapEnd : Nat) (c : Config)
    (given : c = mainHeap image.heapStart heapEnd) (length : 0 ≤ c.nHeap) (memory : Memory)
    (calls : List Call) (s : System) (ran : Reaches c memory calls s) :
    (∀ a : Nat, a < c.pHeap ∨ c.pHeap + c.nHeap ≤ a → s.lib.mem5.chunks.memory a = memory a) ∧
    ((layout c).aCtrl + (layout c).nBlock : Int) ≤ c.pHeap + c.nHeap ∧
    ∀ p n, s.owned p = some n →
      n ≤ memsys5Size (layout c) p s.lib.mem5 ∧ c.pHeap ≤ p ∧
      p + memsys5Size (layout c) p s.lib.mem5 ≤ (layout c).aCtrl ∧
      memsys5Size (layout c) p s.lib.mem5 ∣ p - c.pHeap ∧
      ∀ q, (s.owned q).isSome → q ≠ p →
        p + memsys5Size (layout c) p s.lib.mem5 ≤ q ∨
          q + memsys5Size (layout c) q s.lib.mem5 ≤ p := by
  subst given
  have usable := main_usable image heapEnd length
  obtain ⟨⟨h,serving⟩,confined⟩ := reached usable memory ran
  have start : (layout (mainHeap image.heapStart heapEnd)).zPool =
    (mainHeap image.heapStart heapEnd).pHeap := rfl
  have within := layout_within _ usable.lower usable.upper
  rw [Nat.mul_succ] at within
  refine ⟨confined,?_,fun p n owned => ?_⟩
  · simp only [Layout.aCtrl,Layout.block]
    omega
  obtain ⟨i,k,place,live,size,inside,aligned⟩ := serving.block (by rw [owned]; rfl)
  rw [size]
  refine ⟨serving.fits p n k owned live,?_,?_,?_,fun q other different => ?_⟩
  · rw [place]
    exact Nat.le_add_right _ _
  · rw [place,block_chunk usable.main]
    exact block_mono _ inside
  · have offset : p - (mainHeap image.heapStart heapEnd).pHeap =
        i * (layout (mainHeap image.heapStart heapEnd)).szAtom := by
      rw [place]
      exact Nat.add_sub_cancel_left _ _
    rw [offset,chunk_bytes usable.main,Nat.mul_comm]
    exact Nat.mul_dvd_mul_right aligned _
  · obtain ⟨-,l,-,also,sizeAlso,-⟩ := serving.block other
    rw [sizeAlso]
    exact serving.tracks.valid.separate.apart p q k l live also (Ne.symm different)

theorem one_block_placed : ∃ s, Reaches sampleHeap (fun _ => 0) sampleCalls s ∧
    (∀ a : Nat, a < 0xdcaa00 ∨ 0x3fff0000 ≤ a → s.lib.mem5.chunks.memory a = 0) ∧
    ∀ p n, s.owned p = some n → 0xdcaa00 ≤ p := by
  obtain ⟨s,ran⟩ := sample_reaches
  obtain ⟨outside,-,placed⟩ :=
    blocks_placed sampleImage 0x3fff0000 _ rfl (by decide) _ _ s ran
  have last : (sampleHeap.pHeap : Int) + sampleHeap.nHeap = 0x3fff0000 := by decide
  refine ⟨s,ran,fun a away => outside a (away.imp id fun above => ?_),fun p n owned =>
    (placed p n owned).2.1⟩
  rw [sampleHeap] at last
  omega

/-- The counters of memsys5 and of SQLite's status are the sizes and the number of the blocks
owned. -/
theorem accounts_exact (image : Image) (heapEnd : Nat) (c : Config)
    (given : c = mainHeap image.heapStart heapEnd) (length : 0 ≤ c.nHeap) (memory : Memory)
    (calls : List Call) (s : System) (ran : Reaches c memory calls s) :
    (∀ p, p ∈ blocksOwned (layout c) s ↔ (s.owned p).isSome) ∧
    ∃ bytes : Nat,
      bytes = ((blocksOwned (layout c) s).map fun p => memsys5Size (layout c) p s.lib.mem5).sum ∧
      s.lib.mem5.stats.currentOut.toNat = bytes ∧
      s.lib.status.nowValue SQLITE_STATUS_MEMORY_USED = bytes ∧
      s.lib.mem5.stats.currentCount.toNat = (blocksOwned (layout c) s).length ∧
      s.lib.status.nowValue SQLITE_STATUS_MALLOC_COUNT = (blocksOwned (layout c) s).length := by
  subst given
  obtain ⟨⟨h,serving⟩,-⟩ := reached (main_usable image heapEnd length) memory ran
  obtain ⟨bytes,blocks⟩ := serving.sums
  have counted := serving.tracks.follows.counted
  have used := serving.tracks.used
  have number := serving.tracks.blocks
  rw [bytes] at used
  rw [blocks] at number
  exact ⟨fun p => serving.listed,_,rfl,counted.bytes.trans bytes,used,
    counted.blocks.trans blocks,number⟩

theorem one_block_accounts : ∃ s, Reaches sampleHeap (fun _ => 0) sampleCalls s ∧
    s.lib.status.nowValue SQLITE_STATUS_MALLOC_COUNT =
      (blocksOwned (layout sampleHeap) s).length := by
  obtain ⟨s,ran⟩ := sample_reaches
  obtain ⟨-,bytes,-,-,-,-,number⟩ :=
    accounts_exact sampleImage 0x3fff0000 _ rfl (by decide) _ _ s ran
  exact ⟨s,ran,number⟩

/-- A new block is refused exactly when it is larger than 2^30 bytes or every aligned run of its
chunk size meets a block that is owned. -/
theorem refused_iff_no_room (image : Image) (heapEnd : Nat) (c : Config)
    (given : c = mainHeap image.heapStart heapEnd) (length : 0 ≤ c.nHeap) (memory : Memory)
    (calls : List Call) (s : System) (ran : Reaches c memory calls s) (n : Nat) (positive : 0 < n)
    (small : n < 2 ^ 31) :
    (lAlloc (layout c) 0 0 n s.lib).1 = 0 ↔
      2 ^ 30 < n ∨ ¬Room (layout c) s (memsys5Roundup (layout c) n) := by
  subst given
  have usable := main_usable image heapEnd length
  obtain ⟨⟨h,serving⟩,-⟩ := reached usable memory ran
  rw [serving.null_refused positive small]
  by_cases large : 0x40000000 < n
  · exact iff_of_true (Or.inl large) (Or.inl (by omega))
  · rw [roundup_same usable.main,Sqlite.memsys5Roundup,if_neg large,
      (Sqlite.rounded n (by omega)).size,serving.room_iff]
    simp [large]

/-- The first block is not refused. -/
theorem first_block_room :
    (lAlloc (layout sampleHeap) 0 0 100 (boot sampleHeap fun _ => 0).lib).1 ≠ 0 := by
  intro refused
  have start : Reaches sampleHeap (fun _ => 0) [] (boot sampleHeap fun _ => 0) := rfl
  have reason := (refused_iff_no_room sampleImage 0x3fff0000 _ rfl (by decide) _ _ _ start 100
    (by decide) (by decide)).mp refused
  rcases reason with large | full
  · omega
  · exact full ⟨0,Nat.dvd_zero _,by decide,fun p owned => by simp [boot] at owned⟩

/-- Once everything is freed, whatever was allocated in between and in which order, the free lists
start as `memsys5Init` left them, and a call for a new block returns what it returned then. -/
theorem freed_restores (image : Image) (heapEnd : Nat) (c : Config)
    (given : c = mainHeap image.heapStart heapEnd) (length : 0 ≤ c.nHeap) (memory : Memory)
    (calls : List Call) (s : System) (ran : Reaches c memory calls s)
    (nothing : ∀ p, s.owned p = none) :
    s.lib.mem5.chunks.aiFreelist = (boot c memory).lib.mem5.chunks.aiFreelist ∧
    ∀ n, (lAlloc (layout c) 0 0 n s.lib).1 = (lAlloc (layout c) 0 0 n (boot c memory).lib).1 := by
  subst given
  have usable := main_usable image heapEnd length
  obtain ⟨⟨h,serving⟩,-⟩ := reached usable memory ran
  obtain ⟨⟨h₀,first⟩,-⟩ := boot_serves usable memory
  have same := serving.restored nothing first fun _ => rfl
  exact ⟨same,null_congr _ same⟩

theorem allocate_free (g : Layout) (s : System) (nothing : ∀ q, s.owned q = none)
    (positive : 0 < n) (small : n < 2 ^ 31) :
    ∃ p t, run (step g) s [.alloc .lua 0 n, .alloc .lua p 0] = some t ∧
      ∀ q, t.owned q = none := by
  obtain ⟨p,lib,call⟩ : ∃ p lib, lAlloc g 0 ((s.owned 0).getD 0) n s.lib = (p, lib) := ⟨_,_,rfl⟩
  have moved : step g s (.alloc .lua 0 n) =
      some ⟨lib, owns s.owned 0 n p, Function.update s.owner p .lua⟩ := by
    simp only [step,small,Caller.call,call,true_or,implies_true,and_self,↓reduceIte]
  have held : p = 0 ∨ (owns s.owned 0 n p p).isSome := by
    by_cases null : p = 0
    · exact Or.inl null
    · exact Or.inr (by simp [owns,null,Nat.ne_of_gt positive,setOwned])
  obtain ⟨lib',owner,freed⟩ : ∃ lib' owner,
      step g ⟨lib, owns s.owned 0 n p, Function.update s.owner p .lua⟩ (.alloc .lua p 0) =
        some ⟨lib', setOwned (owns s.owned 0 n p) p none, owner⟩ :=
    ⟨_,_,if_pos ⟨held.imp id fun owned => ⟨owned,Function.update_self ..⟩,by decide⟩⟩
  refine ⟨p,_,(run_cons _ _ _ _).mpr ⟨_,moved,(run_cons _ _ _ _).mpr ⟨_,freed,rfl⟩⟩,fun q => ?_⟩
  by_cases here : q = p
  · simp [setOwned,here]
  · by_cases null : p = 0 <;>
      simp [owns,setOwned,null,here,Nat.ne_of_gt positive,Function.update_apply,nothing]

/-- A block that is allocated and freed. -/
theorem one_block_restores : ∃ p s,
    Reaches sampleHeap (fun _ => 0) [.alloc .lua 0 100, .alloc .lua p 0] s ∧
    (∀ q, s.owned q = none) ∧
    s.lib.mem5.chunks.aiFreelist = (boot sampleHeap fun _ => 0).lib.mem5.chunks.aiFreelist := by
  obtain ⟨p,s,ran,nothing⟩ := allocate_free (n := 100) (layout sampleHeap)
    (boot sampleHeap fun _ => 0) (fun _ => rfl) (by decide) (by decide)
  have ran : Reaches sampleHeap (fun _ => 0) [.alloc .lua 0 100, .alloc .lua p 0] s := ran
  exact ⟨p,s,ran,nothing,
    (freed_restores sampleImage 0x3fff0000 _ rfl (by decide) _ _ s ran nothing).1⟩

end LuaKernel.SqliteMalloc
