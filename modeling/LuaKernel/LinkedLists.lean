import Mathlib.Logic.Function.Basic

/-! Doubly linked lists threaded through numbered cells. Each cell names the cells before and
behind it, each list its first cell, and -1 stands for none. The two operations are those of an
intrusive free list: a cell goes in at the front and comes out from anywhere. -/
namespace LuaKernel.LinkedLists

structure Links where
  next : Nat → Int
  prev : Nat → Int
  first : Nat → Int

def link (i k : Nat) (s : Links) : Links where
  next := Function.update s.next i (s.first k)
  prev :=
    let prev := Function.update s.prev i (-1)
    if 0 ≤ s.first k then Function.update prev (s.first k).toNat i else prev
  first := Function.update s.first k i

def unlink (i k : Nat) (s : Links) : Links where
  next := if s.prev i < 0 then s.next else Function.update s.next (s.prev i).toNat (s.next i)
  prev := if 0 ≤ s.next i then Function.update s.prev (s.next i).toNat (s.prev i) else s.prev
  first := if s.prev i < 0 then Function.update s.first k (s.next i) else s.first

/-- The cells from `here` on, behind the cell `before`. -/
def Chain (s : Links) : Int → Int → List Nat → Prop
  | _, here, [] => here = -1
  | before, here, i :: rest => here = i ∧ s.prev i = before ∧ Chain s i (s.next i) rest

structure Lists (s : Links) (cells : Nat → List Nat) : Prop where
  chain : ∀ k, Chain s (-1) (s.first k) (cells k)
  nodup : ∀ k, (cells k).Nodup
  once : ∀ i k l, i ∈ cells k → i ∈ cells l → k = l

/-- A chain is made of the link words of its own cells. -/
theorem chain_congr {s t : Links} (next : ∀ i ∈ cells, t.next i = s.next i)
    (prev : ∀ i ∈ cells, t.prev i = s.prev i) (chain : Chain s before here cells) :
    Chain t before here cells := by
  induction cells generalizing before here with
  | nil => exact chain
  | cons i rest ih =>
    obtain ⟨here_,before_,later⟩ := chain
    have follows := ih (fun j member => next j (by simp [member]))
      (fun j member => prev j (by simp [member])) later
    exact ⟨here_,(prev i (by simp)).trans before_,(next i (by simp)).symm ▸ follows⟩

theorem Lists.congr {s t : Links} (lists : Lists s cells) (first : t.first = s.first)
    (next : ∀ k, ∀ i ∈ cells k, t.next i = s.next i)
    (prev : ∀ k, ∀ i ∈ cells k, t.prev i = s.prev i) : Lists t cells where
  chain k := first ▸ chain_congr (next k) (prev k) (lists.chain k)
  nodup := lists.nodup
  once := lists.once

theorem Lists.first_negative (lists : Lists s cells) (k : Nat) :
    s.first k < 0 ↔ cells k = [] := by
  have chain := lists.chain k
  cases list : cells k with
  | nil => rw [list] at chain; simp only [Chain] at chain; simp [chain]
  | cons i rest => rw [list] at chain; simp only [Chain] at chain; simp [chain.1]

theorem Lists.first_mem (lists : Lists s cells) (k : Nat) (some : 0 ≤ s.first k) :
    ∃ rest, cells k = (s.first k).toNat :: rest := by
  have chain := lists.chain k
  cases list : cells k with
  | nil => rw [list] at chain; simp only [Chain] at chain; omega
  | cons i rest =>
    rw [list] at chain
    simp only [Chain] at chain
    exact ⟨rest,by rw [chain.1]; simp⟩

theorem link_chain {s : Links} (chain : Chain s (-1) (s.first k) cells) (new : i ∉ cells)
    (nodup : cells.Nodup) : Chain (link i k s) (-1) ((link i k s).first k) (i :: cells) := by
  cases cells with
  | nil =>
    have empty : s.first k = -1 := chain
    simp [Chain,link,empty]
  | cons j rest =>
    obtain ⟨first,-,later⟩ := chain
    rw [List.mem_cons,not_or] at new
    obtain ⟨fresh,-⟩ := List.nodup_cons.mp nodup
    have front : (link i k s).prev j = i := by simp [link,first]
    have tail : Chain (link i k s) j (s.next j) rest := by
      apply chain_congr _ _ later
      · intro a member
        have other : a ≠ i := fun same => new.2 (same ▸ member)
        simp [link,other]
      · intro a member
        have other : a ≠ i := fun same => new.2 (same ▸ member)
        have behind : a ≠ j := fun same => fresh (same ▸ member)
        simp [link,first,other,behind]
    have kept : (link i k s).next j = s.next j := by simp [link,Ne.symm new.1]
    refine ⟨by simp [link],?_,?_,front,kept.symm ▸ tail⟩
    · simp [link,first,new.1]
    · simp [link,first]

theorem link_lists (lists : Lists s cells) (new : ∀ l, i ∉ cells l) (k : Nat) :
    Lists (link i k s) (Function.update cells k (i :: cells k)) := by
  constructor
  · intro l
    by_cases same : l = k
    · subst same
      rw [Function.update_self]
      exact link_chain (lists.chain l) (new l) (lists.nodup l)
    · have first : (link i k s).first l = s.first l := by simp [link,same]
      rw [Function.update_of_ne same,first]
      apply chain_congr _ _ (lists.chain l)
      · intro a member
        have other : a ≠ i := fun is => new l (is ▸ member)
        simp [link,other]
      · intro a member
        have other : a ≠ i := fun is => new l (is ▸ member)
        by_cases some : 0 ≤ s.first k
        · obtain ⟨rest,front⟩ := lists.first_mem k some
          have apart : a ≠ (s.first k).toNat := fun is =>
            same (lists.once a l k member (by rw [front,is]; simp))
          simp [link,some,other,apart]
        · simp [link,some,other]
  · intro l
    by_cases same : l = k
    · subst same
      simpa using ⟨new l,lists.nodup l⟩
    · simpa [same] using lists.nodup l
  · intro a l l' first second
    by_cases here : a = i
    · subst here
      have only : ∀ l, a ∈ Function.update cells k (a :: cells k) l → l = k := by
        intro l member
        by_contra other
        exact new l (by simpa [other] using member)
      rw [only l first,only l' second]
    · have before : ∀ l, a ∈ Function.update cells k (i :: cells k) l → a ∈ cells l := by
        intro l member
        by_cases other : l = k
        · subst other
          simpa [here] using member
        · simpa [other] using member
      exact lists.once a l l' (before l first) (before l' second)

theorem chain_prev {s : Links} {left : List Nat}
    (chain : Chain s before here (left ++ i :: right)) :
    (left = [] ∧ s.prev i = before) ∨ ∃ j ∈ left, s.prev i = j := by
  induction left generalizing before here with
  | nil => exact Or.inl ⟨rfl,chain.2.1⟩
  | cons j rest ih =>
    rcases ih chain.2.2 with ⟨rfl,at_⟩ | ⟨m,member,at_⟩
    · exact Or.inr ⟨j,by simp,at_⟩
    · exact Or.inr ⟨m,by simp [member],at_⟩

theorem chain_next {s : Links} (chain : Chain s before here (left ++ i :: right)) :
    s.next i = -1 ∨ ∃ j ∈ right, s.next i = j := by
  induction left generalizing before here with
  | nil =>
    have later := chain.2.2
    cases right with
    | nil => exact Or.inl later
    | cons j rest => exact Or.inr ⟨j,by simp,later.1⟩
  | cons j rest ih => exact ih chain.2.2

/-- Around a cell taken out, its neighbours name each other. -/
theorem chain_remove {s t : Links} (chain : Chain s before here (left ++ i :: right))
    (nodup : (left ++ i :: right).Nodup) (outside : ∀ j ∈ left ++ i :: right, before ≠ j)
    (next : ∀ j ∈ left ++ right, t.next j = if s.prev i = j then s.next i else s.next j)
    (prev : ∀ j ∈ left ++ right, t.prev j = if s.next i = j then s.prev i else s.prev j) :
    Chain t before (if left = [] then s.next i else here) (left ++ right) := by
  induction left generalizing before here with
  | nil =>
    obtain ⟨-,at_,later⟩ := chain
    cases right with
    | nil => exact later
    | cons j rest =>
      obtain ⟨behind,-,tail⟩ := later
      have apart : ∀ m ∈ j :: rest, s.prev i ≠ m := fun m member =>
        at_ ▸ outside m (List.mem_cons_of_mem i member)
      have fresh : j ∉ rest := (List.nodup_cons.mp (List.nodup_cons.mp nodup).2).1
      have front : t.prev j = before := by rw [prev j (by simp),if_pos behind,at_]
      have follows : t.next j = s.next j := by rw [next j (by simp),if_neg (apart j (by simp))]
      refine ⟨behind,front,follows ▸ chain_congr ?_ ?_ tail⟩
      · intro m member
        rw [next m (by simp [member]),if_neg (apart m (by simp [member]))]
      · intro m member
        have other : s.next i ≠ m := fun same =>
          fresh (Int.ofNat.inj (behind.symm.trans same) ▸ member)
        rw [prev m (by simp [member]),if_neg other]
  | cons j rest ih =>
    obtain ⟨here_,before_,later⟩ := chain
    obtain ⟨fresh,distinct⟩ := List.nodup_cons.mp nodup
    have apart : ∀ m ∈ rest ++ i :: right, (j : Int) ≠ m := fun m member same =>
      fresh (Int.ofNat.inj same ▸ member)
    have tail := ih later distinct apart
      (fun m member => next m (List.mem_cons_of_mem j member))
      (fun m member => prev m (List.mem_cons_of_mem j member))
    have front : t.prev j = before := by
      have other : s.next i ≠ j := by
        rcases chain_next later with none | ⟨m,member,at_⟩
        · omega
        · exact at_ ▸ (apart m (by simp [member])).symm
      rw [prev j (by simp),if_neg other,before_]
    have follows : t.next j = if rest = [] then s.next i else s.next j := by
      rw [next j (by simp)]
      rcases chain_prev later with ⟨empty,at_⟩ | ⟨m,member,at_⟩
      · rw [if_pos at_,if_pos empty]
      · have other : s.prev i ≠ j := at_ ▸ (apart m (by simp [member])).symm
        rw [if_neg other,if_neg (List.ne_nil_of_mem member)]
    exact ⟨here_,front,follows ▸ tail⟩

theorem update_toNat (f : Nat → Int) (place : Int) (value : Int) (inside : 0 ≤ place) (j : Nat) :
    Function.update f place.toNat value j = if place = j then value else f j := by
  by_cases same : place = j
  · subst same
    simp
  · rw [if_neg same,Function.update_of_ne (by omega)]

theorem unlink_next (s : Links) (i k j : Nat) :
    (unlink i k s).next j = if s.prev i = j then s.next i else s.next j := by
  by_cases none : s.prev i < 0
  · have other : s.prev i ≠ j := by omega
    simp [unlink,none,other]
  · simp only [unlink,if_neg none]
    exact update_toNat s.next _ _ (by omega) j

theorem unlink_prev (s : Links) (i k j : Nat) :
    (unlink i k s).prev j = if s.next i = j then s.prev i else s.prev j := by
  by_cases some : 0 ≤ s.next i
  · simp only [unlink,if_pos some]
    exact update_toNat s.prev _ _ some j
  · have other : s.next i ≠ j := by omega
    simp [unlink,some,other]

theorem unlink_lists (lists : Lists s cells) (member : i ∈ cells k) :
    Lists (unlink i k s) (Function.update cells k ((cells k).erase i)) := by
  obtain ⟨left,right,list⟩ := List.append_of_mem member
  have nodup := lists.nodup k
  have chain := lists.chain k
  rw [list] at nodup chain
  have erased : (cells k).erase i = left ++ right := by
    have absent : i ∉ left := fun inside =>
      (List.nodup_append.mp nodup).2.2 i inside i (by simp) rfl
    rw [list,List.erase_append_right _ absent,List.erase_cons_head]
  have fewer : ∀ l a, a ∈ Function.update cells k ((cells k).erase i) l → a ∈ cells l := by
    intro l a inside
    by_cases same : l = k
    · subst same
      exact List.mem_of_mem_erase (by simpa using inside)
    · simpa [same] using inside
  constructor
  · intro l
    by_cases same : l = k
    · subst same
      have first : (unlink i l s).first l = if left = [] then s.next i else s.first l := by
        rcases chain_prev chain with ⟨empty,at_⟩ | ⟨j,inside,at_⟩
        · simp [unlink,at_,empty]
        · have some : ¬s.prev i < 0 := by omega
          simp [unlink,some,List.ne_nil_of_mem inside]
      rw [Function.update_self,erased,first]
      exact chain_remove chain nodup (fun j _ => by omega) (fun j _ => unlink_next s i l j)
        (fun j _ => unlink_prev s i l j)
    · have first : (unlink i k s).first l = s.first l := by
        simp only [unlink]
        split
        · exact Function.update_of_ne same _ _
        · rfl
      have apart : ∀ a ∈ cells l, ∀ b ∈ left ++ i :: right, (b : Int) ≠ a :=
        fun a inside b other is => same
          (lists.once a l k inside (list ▸ Int.ofNat.inj is ▸ other))
      rw [Function.update_of_ne same,first]
      apply chain_congr _ _ (lists.chain l)
      · intro a inside
        have other : s.prev i ≠ a := by
          rcases chain_prev chain with ⟨-,at_⟩ | ⟨j,named,at_⟩
          · omega
          · exact at_ ▸ apart a inside j (by simp [named])
        rw [unlink_next,if_neg other]
      · intro a inside
        have other : s.next i ≠ a := by
          rcases chain_next chain with at_ | ⟨j,named,at_⟩
          · omega
          · exact at_ ▸ apart a inside j (by simp [named])
        rw [unlink_prev,if_neg other]
  · intro l
    by_cases same : l = k
    · subst same
      simpa using (lists.nodup l).erase i
    · simpa [same] using lists.nodup l
  · exact fun a l l' first second => lists.once a l l' (fewer l a first) (fewer l' a second)

end LuaKernel.LinkedLists
