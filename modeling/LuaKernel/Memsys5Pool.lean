import LuaKernel.LuaAlloc
import LuaKernel.Memsys5Init

/-! memsys5 is a pool: what the SQLite layers above were proved to do over any free lists, they do
over the buddy lists of the source. The pool's own invariant is that some books balance, are held
by the memory and have checked out exactly the chunks the callers hold. -/
namespace LuaKernel.Memsys5

open Bytes Grid Buddies LinkedLists

/-- A layout with the atom of 64 bytes that `main` asks for. -/
structure Layout.Main (g : Layout) : Prop extends g.Sound where
  bytes : g.szAtom = Sqlite.szAtom

def Agree (g : Layout) (live : Nat → Option Nat) (b : Books) : Prop :=
  ∀ p k, live p = some k ↔ ∃ i, p = g.block i ∧ b.out i = some k

section Addresses

variable {g : Layout} (main : g.Main)

include main

theorem block_chunk (i k : Nat) : g.block i + Sqlite.chunk k = g.block (i + 2 ^ k) := by
  rw [Layout.block,Layout.block,Sqlite.chunk,main.bytes,Nat.add_mul,Nat.mul_comm (2 ^ k),
    Nat.add_assoc]

theorem block_injective (same : g.block i = g.block j) : i = j := by
  rw [← indexOf_block main.toSound i,same,indexOf_block main.toSound j]

theorem Agree.out (agree : Agree g live b) (i : Nat) : live (g.block i) = b.out i := by
  have at_ : ∀ k, live (g.block i) = some k ↔ b.out i = some k := by
    intro k
    rw [agree]
    constructor
    · rintro ⟨j,same,out⟩
      rwa [block_injective main same]
    · exact fun out => ⟨i,rfl,out⟩
  exact Option.ext at_

theorem Agree.checkout (agree : Agree g live b)
    (out : b'.out = Function.update b.out i (some k)) :
    Agree g (fun a => if a = g.block i then some k else live a) b' := by
  intro p l
  by_cases here : p = g.block i
  · subst here
    have at_ := agree.out main i
    simp only [↓reduceIte,out]
    constructor
    · rintro same
      exact ⟨i,rfl,by rw [Function.update_self,same]⟩
    · rintro ⟨j,same,found⟩
      rwa [← block_injective main same,Function.update_self] at found
  · simp only [if_neg here,agree p l,out]
    refine exists_congr fun j => and_congr_right fun at_ => ?_
    have other : j ≠ i := fun same => here (same ▸ at_)
    rw [Function.update_of_ne other]

theorem Agree.release (agree : Agree g live b) (out : b'.out = Function.update b.out i none) :
    Agree g (fun a => if a = g.block i then none else live a) b' := by
  intro p l
  by_cases here : p = g.block i
  · subst here
    simp only [↓reduceIte,out,reduceCtorEq,false_iff,not_exists,not_and]
    intro j same
    rw [← block_injective main same,Function.update_self]
    simp
  · simp only [if_neg here,agree p l,out]
    refine exists_congr fun j => and_congr_right fun at_ => ?_
    have other : j ≠ i := fun same => here (same ▸ at_)
    rw [Function.update_of_ne other]

/-- What the books keep is kept for the callers. -/
theorem Agree.keeps (agree : Agree g live b) (keeps : Keeps g b.out m m') :
    ∀ q l i, live q = some l → i < Sqlite.chunk l → m' (q + i) = m (q + i) := by
  intro q l i held inside
  obtain ⟨j,rfl,out⟩ := (agree q l).mp held
  have ends := block_chunk main j l
  exact keeps.chunks j l _ out (by omega) (by omega)

end Addresses

variable (g : Layout)

def chunksOf (h : Sqlite.Heap (List Int)) : Chunks := ⟨h.bytes, h.links⟩

def Consistent (h : Sqlite.Heap (List Int)) : Prop :=
  ∃ b, Kept g (chunksOf h) b ∧ Agree g h.live b

def take (h : Sqlite.Heap (List Int)) (k : Nat) : Option (Nat × List Int × Memory) :=
  (checkOut g k (chunksOf h)).map fun (i, m) => (g.block i, m.aiFreelist, m.memory)

def give (h : Sqlite.Heap (List Int)) (p : Nat) : List Int × Memory :=
  match h.live p with
  | none => (h.links, h.bytes)
  | some k =>
    let m := giveBack g (indexOf g p) k (chunksOf h)
    (m.aiFreelist, m.memory)

theorem take_served {g : Layout} (main : g.Main) {h : Sqlite.Heap (List Int)}
    (kept : Kept g (chunksOf h) b) (taken : take g h k = some (p, links, bytes)) :
    ∃ i b', p = g.block i ∧ b.out i = none ∧ Kept g ⟨bytes, links⟩ b' ∧
      b'.out = Function.update b.out i (some k) ∧ Keeps g b.out h.bytes bytes := by
  have ends := checkOut_ends main.toSound kept k
  rw [take,Option.map_eq_some_iff] at taken
  obtain ⟨⟨i,m⟩,found,same⟩ := taken
  obtain ⟨rfl,rfl,rfl⟩ := by simpa using same
  rw [found] at ends
  cases ends with
  | served absent kept' out keeps => exact ⟨i,_,rfl,absent,kept',out,keeps⟩

section Laws

variable {g} (main : g.Main) {h : Sqlite.Heap (List Int)}

include main

theorem take_fresh (consistent : Consistent g h) (taken : take g h k = some (p, links, bytes)) :
    p ≠ 0 ∧ ∀ q l, h.live q = some l → p + Sqlite.chunk k ≤ q ∨ q + Sqlite.chunk l ≤ p := by
  obtain ⟨b,kept,agree⟩ := consistent
  obtain ⟨i,b',rfl,absent,kept',out,-⟩ := take_served main kept taken
  have positive := main.notNull
  refine ⟨by simp only [Layout.block]; omega,fun q l held => ?_⟩
  obtain ⟨j,rfl,live⟩ := (agree q l).mp held
  have different : j ≠ i := fun same => by simp [same ▸ live] at absent
  have new : (i, k) ∈ b'.tiles := Or.inl (by simp [out])
  have old : (j, l) ∈ b'.tiles := Or.inl (by simp [out,different,live])
  have apart := kept'.balanced.tiling.apart i k j l new old
    fun same => different (Prod.mk.inj same).1.symm
  rw [block_chunk main,block_chunk main]
  exact apart.imp (block_mono g) (block_mono g)

theorem take_keeps (consistent : Consistent g h) (taken : take g h k = some (p, links, bytes)) :
    Sqlite.Keeps h bytes := by
  obtain ⟨b,kept,agree⟩ := consistent
  obtain ⟨i,b',-,-,-,-,keeps⟩ := take_served main kept taken
  exact agree.keeps main keeps

theorem take_consistent (consistent : Consistent g h)
    (taken : take g h k = some (p, links, bytes)) :
    Consistent g (Sqlite.Heap.checkout ⟨h.live, bytes, links⟩ p k) := by
  obtain ⟨b,kept,agree⟩ := consistent
  obtain ⟨i,b',rfl,-,kept',out,-⟩ := take_served main kept taken
  exact ⟨b',kept',agree.checkout main out⟩

theorem give_keeps (consistent : Consistent g h) (p : Nat) :
    Sqlite.Keeps (h.release p) (give g h p).2 := by
  obtain ⟨b,kept,agree⟩ := consistent
  intro q l i held inside
  cases live : h.live p with
  | none => simp [give,live,Sqlite.Heap.release]
  | some k =>
    obtain ⟨j,rfl,out⟩ := (agree p k).mp live
    obtain ⟨b',kept',out',keeps⟩ := giveBack_gives main.toSound kept out
    simp only [give,live,indexOf_block main.toSound]
    exact (agree.release main out').keeps main keeps q l i held inside

theorem give_consistent (consistent : Consistent g h) (live : h.live p = some k) :
    Consistent g (Sqlite.Heap.release ⟨h.live, (give g h p).2, (give g h p).1⟩ p) := by
  obtain ⟨b,kept,agree⟩ := consistent
  obtain ⟨j,rfl,out⟩ := (agree p k).mp live
  obtain ⟨b',kept',out',-⟩ := giveBack_gives main.toSound kept out
  simp only [give,live,indexOf_block main.toSound]
  exact ⟨b',kept',agree.release main out'⟩

theorem write_consistent (consistent : Consistent g h) (bytes : Memory)
    (same : ∀ a, (∀ q l, h.live q = some l → a < q ∨ q + Sqlite.chunk l ≤ a) →
      bytes a = h.bytes a) : Consistent g { h with bytes := bytes } := by
  obtain ⟨b,kept,agree⟩ := consistent
  refine ⟨b,store_kept main.toSound kept bytes fun a outside => same a fun q l held => ?_,agree⟩
  obtain ⟨j,rfl,out⟩ := (agree q l).mp held
  rw [block_chunk main]
  exact outside j l out

end Laws

def pool (main : g.Main) : Sqlite.Pool (List Int) where
  Consistent := Consistent g
  take := take g
  give := give g
  take_fresh _ _ _ _ _ := take_fresh main
  take_keeps _ _ _ _ _ := take_keeps main
  take_consistent _ _ _ _ _ := take_consistent main
  give_keeps _ p consistent := give_keeps main consistent p
  give_consistent _ _ _ := give_consistent main
  write_consistent _ bytes consistent := write_consistent main consistent bytes

end LuaKernel.Memsys5
