import Mathlib.Order.Nat
import LuaKernel.Multiboot

/-! What `get_multiboot_info` reads, and whether it comes to an end, on a block of any content.
The function loads `total_size` and never looks at it: both loops go where the sizes in the
data lead. -/
namespace LuaKernel.Multiboot

open Bytes

structure Read where
  address : Nat
  width : Nat

def mmapEntrySize (m : Memory) (tag : Nat) : Nat := load m (tag + 8) 4

def reads (m : Memory) (s : State) : List Read :=
  match s.cursor with
  | .done => []
  | .tag tag =>
    ⟨tag, 4⟩ ::
    if tagType m tag = tagTypeEnd then []
    else if tagType m tag = tagTypeVbe then
      [⟨tag + 528, sizeofVBEModeInfoBlock⟩, ⟨tag + 4, 4⟩]
    else if tagType m tag = tagTypeFramebuffer then
      (if 0 < xResolution s.globals.modeinfo then [⟨tag + 8, 8⟩] else []) ++ [⟨tag + 4, 4⟩]
    else if tagType m tag = tagTypeMmap then []
    else [⟨tag + 4, 4⟩]
  | .entry tag entry =>
    ⟨tag + 4, 4⟩ ::
    if entry < tag + tagSize m tag then
      ⟨entry + 16, 4⟩ ::
      (if load m (entry + 16) 4 = memoryAvailable then
        ⟨entry, 8⟩ :: if load m entry 8 = 0x100000 then [⟨entry + 8, 8⟩] else []
      else []) ++ [⟨tag + 8, 4⟩]
    else []

/-- The reads of the call: `total_size`, and those of its steps. -/
def Reads (m : Memory) (information : Nat) (read : Read) : Prop :=
  read = ⟨information, 4⟩ ∨ ∃ n, read ∈ reads m ((step m)^[n] (start information))

def totalSize (m : Memory) (information : Nat) : Nat := load m information 4

/-- The call returns, and reads nothing at or beyond the end of the block. -/
structure Within (m : Memory) (information : Nat) : Prop where
  returns : ∃ g, Returns m information g
  inside : ∀ read, Reads m information read →
    read.address + read.width ≤ information + totalSize m information

/-- From an mmap entry on: the entries end before the block does, and come to an end. -/
def EntriesInside (m : Memory) (limit tag entry : Nat) : Prop :=
  entry < tag + tagSize m tag → 0 < mmapEntrySize m tag ∧
    ∀ j, entry + j * mmapEntrySize m tag < tag + tagSize m tag →
      entry + j * mmapEntrySize m tag + 20 ≤ limit

/-- A chain of tags that leads to an END tag, with all that is read of it before `limit`; `mode`
is the mode block in force. -/
inductive Chain (m : Memory) (limit : Nat) : List UInt8 → Nat → Prop
  | stop (inside : tag + 4 ≤ limit) (type : tagType m tag = tagTypeEnd) : Chain m limit mode tag
  | vbe (inside : tag + 783 ≤ limit) (type : tagType m tag = tagTypeVbe)
      (next : Chain m limit (copy m (tag + 528) sizeofVBEModeInfoBlock) (nextTag m tag)) :
      Chain m limit mode tag
  | framebuffer (inside : tag + 8 ≤ limit) (type : tagType m tag = tagTypeFramebuffer)
      (address : 0 < xResolution mode → tag + 16 ≤ limit)
      (next : Chain m limit mode (nextTag m tag)) : Chain m limit mode tag
  | mmap (inside : tag + 8 ≤ limit) (type : tagType m tag = tagTypeMmap)
      (entries : EntriesInside m limit tag (tag + 16))
      (next : Chain m limit mode (nextTag m tag)) : Chain m limit mode tag
  | other (inside : tag + 8 ≤ limit)
      (type : tagType m tag ∉ [tagTypeEnd, tagTypeVbe, tagTypeFramebuffer, tagTypeMmap])
      (next : Chain m limit mode (nextTag m tag)) : Chain m limit mode tag

inductive Safe (m : Memory) (limit : Nat) : State → Prop
  | done (g : Globals) : Safe m limit ⟨.done, g⟩
  | step (s : State) (inside : ∀ read ∈ reads m s, read.address + read.width ≤ limit)
      (next : Safe m limit (step m s)) : Safe m limit s

theorem safe_iff (m : Memory) (limit : Nat) (s : State) :
    Safe m limit s ↔ (∃ n g, (step m)^[n] s = ⟨.done, g⟩) ∧
      ∀ n, ∀ read ∈ reads m ((step m)^[n] s), read.address + read.width ≤ limit := by
  constructor
  · intro safe
    induction safe with
    | done g =>
      refine ⟨⟨0,g,rfl⟩,fun n read member => ?_⟩
      rw [iterate_done] at member
      simp [reads] at member
    | step s inside _ ih =>
      obtain ⟨⟨n,g,ended⟩,later⟩ := ih
      refine ⟨⟨n + 1,g,ended⟩,fun k => ?_⟩
      cases k with
      | zero => exact inside
      | succ k => exact later k
  · rintro ⟨⟨n,g,ended⟩,inside⟩
    induction n generalizing s with
    | zero =>
      rw [Function.iterate_zero,id_eq] at ended
      exact ended ▸ .done g
    | succ n ih => exact .step s (inside 0) (ih (step m s) (fun k => inside (k + 1)) ended)

theorem step_stop (type : tagType m tag = tagTypeEnd) (g : Globals) :
    step m ⟨.tag tag, g⟩ = ⟨.done, g⟩ ∧ reads m ⟨.tag tag, g⟩ = [⟨tag, 4⟩] := by
  simp [step,reads,type]

theorem step_vbe (type : tagType m tag = tagTypeVbe) (g : Globals) :
    step m ⟨.tag tag, g⟩ = ⟨.tag (nextTag m tag),
        { g with modeinfo := copy m (tag + 528) sizeofVBEModeInfoBlock }⟩ ∧
      reads m ⟨.tag tag, g⟩ = [⟨tag, 4⟩, ⟨tag + 528, 255⟩, ⟨tag + 4, 4⟩] := by
  simp [step,reads,type,tagTypeVbe,tagTypeEnd,sizeofVBEModeInfoBlock]

theorem step_framebuffer (type : tagType m tag = tagTypeFramebuffer) (g : Globals) :
    ∃ next, step m ⟨.tag tag, g⟩ = ⟨.tag (nextTag m tag), next⟩ ∧ next.modeinfo = g.modeinfo ∧
      reads m ⟨.tag tag, g⟩ = ⟨tag, 4⟩ ::
        ((if 0 < xResolution g.modeinfo then [⟨tag + 8, 8⟩] else []) ++ [⟨tag + 4, 4⟩]) := by
  refine ⟨_,by simp [step,type,tagTypeFramebuffer,tagTypeVbe,tagTypeEnd]; rfl,?_,?_⟩
  · split <;> rfl
  · simp [reads,type,tagTypeFramebuffer,tagTypeVbe,tagTypeEnd]

theorem step_mmap (type : tagType m tag = tagTypeMmap) (g : Globals) :
    step m ⟨.tag tag, g⟩ = ⟨.entry tag (tag + 16), g⟩ ∧ reads m ⟨.tag tag, g⟩ = [⟨tag, 4⟩] := by
  simp [step,reads,type,tagTypeMmap,tagTypeFramebuffer,tagTypeVbe,tagTypeEnd]

theorem step_other
    (type : tagType m tag ∉ [tagTypeEnd, tagTypeVbe, tagTypeFramebuffer, tagTypeMmap])
    (g : Globals) : step m ⟨.tag tag, g⟩ = ⟨.tag (nextTag m tag), g⟩ ∧
      reads m ⟨.tag tag, g⟩ = [⟨tag, 4⟩, ⟨tag + 4, 4⟩] := by
  simp only [List.mem_cons,List.not_mem_nil,or_false,not_or] at type
  simp [step,reads,type]

/-- An entry moves `heap_end` only; it is read up to its type. -/
theorem step_entry (before : entry < tag + tagSize m tag) (g : Globals) (limit : Nat) :
    ∃ next, step m ⟨.entry tag entry, g⟩ = ⟨.entry tag (entry + mmapEntrySize m tag), next⟩ ∧
      next.modeinfo = g.modeinfo ∧
      ((∀ read ∈ reads m ⟨.entry tag entry, g⟩, read.address + read.width ≤ limit) ↔
        tag + 12 ≤ limit ∧ entry + 20 ≤ limit) := by
  refine ⟨handleEntry m entry g,by simp [step,before,mmapEntrySize],?_,?_⟩
  · unfold handleEntry
    split_ifs <;> rfl
  · simp only [reads,before,↓reduceIte]
    split_ifs <;> simp <;> omega

theorem step_entries_end (after : ¬entry < tag + tagSize m tag) (g : Globals) :
    step m ⟨.entry tag entry, g⟩ = ⟨.tag (nextTag m tag), g⟩ ∧
      reads m ⟨.entry tag entry, g⟩ = [⟨tag + 4, 4⟩] := by
  simp [step,reads,after]

theorem EntriesInside.step (entries : EntriesInside m limit tag entry)
    (before : entry < tag + tagSize m tag) : 0 < mmapEntrySize m tag ∧ entry + 20 ≤ limit ∧
      EntriesInside m limit tag (entry + mmapEntrySize m tag) := by
  obtain ⟨positive,all⟩ := entries before
  refine ⟨positive,by simpa using all 0 (by simpa using before),fun _ => ⟨positive,fun j => ?_⟩⟩
  have next := all (j + 1)
  rwa [Nat.succ_mul,Nat.add_comm (j * _),← Nat.add_assoc] at next

/-- An entry whose successor is one further on: a size of zero would lead back to it. -/
theorem EntriesInside.back (next : EntriesInside m limit tag (entry + mmapEntrySize m tag))
    (here : entry + 20 ≤ limit) : EntriesInside m limit tag entry := by
  intro before
  have positive : 0 < mmapEntrySize m tag := by
    by_cases more : entry + mmapEntrySize m tag < tag + tagSize m tag
    · exact (next more).1
    · omega
  refine ⟨positive,fun j inside => ?_⟩
  cases j with
  | zero => simpa using here
  | succ j =>
    rw [Nat.succ_mul,Nat.add_comm (j * _),← Nat.add_assoc] at inside ⊢
    exact (next (by omega)).2 j inside

theorem EntriesInside.safe (inside : tag + 8 ≤ limit)
    (next : ∀ g : Globals, g.modeinfo = mode → Safe m limit ⟨.tag (nextTag m tag), g⟩)
    (entry : Nat) (behind : tag + 16 ≤ entry) (entries : EntriesInside m limit tag entry)
    (g : Globals) (same : g.modeinfo = mode) : Safe m limit ⟨.entry tag entry, g⟩ := by
  induction left : tag + tagSize m tag - entry using Nat.strong_induction_on
    generalizing entry g with
  | _ n ih =>
    by_cases before : entry < tag + tagSize m tag
    · obtain ⟨positive,here,later⟩ := entries.step before
      obtain ⟨g',moved,kept,read⟩ := step_entry before g limit
      refine .step _ (read.mpr ⟨by omega,here⟩) ?_
      rw [moved]
      exact ih _ (by omega) _ (by omega) later g' (kept.trans same) rfl
    · obtain ⟨moved,read⟩ := step_entries_end before g
      refine .step _ (by simp [read]; omega) ?_
      rw [moved]
      exact next g same

theorem Chain.safe (chain : Chain m limit mode tag) (g : Globals) (same : g.modeinfo = mode) :
    Safe m limit ⟨.tag tag, g⟩ := by
  induction chain generalizing g with
  | stop inside type =>
    obtain ⟨moved,read⟩ := step_stop type g
    exact .step _ (by simpa [read] using inside) (moved ▸ .done g)
  | vbe inside type _ ih =>
    obtain ⟨moved,read⟩ := step_vbe type g
    refine .step _ (by simp [read]; omega) ?_
    rw [moved]
    exact ih _ rfl
  | framebuffer inside type address _ ih =>
    obtain ⟨g',moved,kept,read⟩ := step_framebuffer type g
    rw [← same] at address
    refine .step _ ?_ ?_
    · rw [read]
      split_ifs with shown
      · have := address shown
        simp
        omega
      · simp
        omega
    · rw [moved]
      exact ih _ (kept.trans same)
  | mmap inside type entries _ ih =>
    obtain ⟨moved,read⟩ := step_mmap type g
    refine .step _ (by simp [read]; omega) ?_
    rw [moved]
    exact entries.safe inside ih _ (Nat.le_refl _) g same
  | other inside type _ ih =>
    obtain ⟨moved,read⟩ := step_other type g
    refine .step _ (by simp [read]; omega) ?_
    rw [moved]
    exact ih g same

def Rest (m : Memory) (limit : Nat) (s : State) : Prop :=
  match s.cursor with
  | .done => True
  | .tag tag => Chain m limit s.globals.modeinfo tag
  | .entry tag entry => tag + 8 ≤ limit ∧ EntriesInside m limit tag entry ∧
      Chain m limit s.globals.modeinfo (nextTag m tag)

theorem Safe.rest (safe : Safe m limit s) : Rest m limit s := by
  induction safe with
  | done => trivial
  | step s inside _ ih =>
    obtain ⟨cursor,g⟩ := s
    cases cursor with
    | done => trivial
    | entry tag entry =>
      by_cases before : entry < tag + tagSize m tag
      · obtain ⟨g',moved,kept,read⟩ := step_entry before g limit
        obtain ⟨-,here⟩ := read.mp inside
        rw [moved] at ih
        obtain ⟨size,later,chain⟩ := ih
        exact ⟨size,later.back here,kept ▸ chain⟩
      · obtain ⟨moved,read⟩ := step_entries_end before g
        rw [moved] at ih
        rw [read] at inside
        exact ⟨by simpa using inside,fun more => absurd more before,ih⟩
    | tag tag =>
      by_cases stop : tagType m tag = tagTypeEnd
      · rw [(step_stop stop g).2] at inside
        exact .stop (by simpa using inside) stop
      by_cases vbe : tagType m tag = tagTypeVbe
      · obtain ⟨moved,read⟩ := step_vbe vbe g
        rw [moved] at ih
        have block := inside ⟨tag + 528, 255⟩ (by simp [read])
        exact .vbe block vbe ih
      by_cases framebuffer : tagType m tag = tagTypeFramebuffer
      · obtain ⟨g',moved,kept,read⟩ := step_framebuffer framebuffer g
        rw [moved] at ih
        have size := inside ⟨tag + 4, 4⟩ (by simp [read])
        refine .framebuffer size framebuffer (fun shown => ?_) (kept ▸ ih)
        exact inside ⟨tag + 8, 8⟩ (by simp [read,shown])
      by_cases mmap : tagType m tag = tagTypeMmap
      · rw [(step_mmap mmap g).1] at ih
        obtain ⟨size,entries,chain⟩ := ih
        exact .mmap size mmap entries chain
      · have other : tagType m tag ∉
            [tagTypeEnd, tagTypeVbe, tagTypeFramebuffer, tagTypeMmap] := by
          simp [stop,vbe,framebuffer,mmap]
        obtain ⟨moved,read⟩ := step_other other g
        rw [moved] at ih
        have size := inside ⟨tag + 4, 4⟩ (by simp [read])
        exact .other size other ih

/-- On a block of any content the call returns and reads nothing beyond it exactly when its
tags form a chain inside it. -/
theorem within_iff (m : Memory) (information : Nat) :
    Within m information ↔ 4 ≤ totalSize m information ∧
      Chain m (information + totalSize m information) Globals.initial.modeinfo
        (information + 8) := by
  have safe := safe_iff m (information + totalSize m information) (start information)
  constructor
  · rintro ⟨⟨g,n,ended⟩,inside⟩
    have header := inside ⟨information, 4⟩ (Or.inl rfl)
    refine ⟨by simpa using header,?_⟩
    exact (safe.mpr ⟨⟨n,g,ended⟩,fun k read member => inside read (Or.inr ⟨k,member⟩)⟩).rest
  · rintro ⟨header,chain⟩
    obtain ⟨⟨n,g,ended⟩,inside⟩ := safe.mp (chain.safe Globals.initial rfl)
    refine ⟨⟨g,n,ended⟩,?_⟩
    rintro read (rfl | ⟨k,member⟩)
    · exact Nat.add_le_add_left header information
    · exact inside k read member

/-- A tag of size zero, of a type the function does not know, and an END tag: 24 bytes. -/
def zeroSize : Memory := image 0
  (encode 24 4 ++ encode 0 4 ++ encode 1 4 ++ encode 0 4 ++ encode 0 4 ++ encode 8 4)

/-- The same with a size of 64: the next tag lies behind the block. -/
def oversize : Memory := image 0
  (encode 24 4 ++ encode 0 4 ++ encode 1 4 ++ encode 64 4 ++ encode 0 4 ++ encode 8 4)

/-- On the first the function never returns, on the second it reads behind the block. -/
theorem malformed_blocks : totalSize zeroSize 0 = 24 ∧ (¬∃ g, Returns zeroSize 0 g) ∧
    totalSize oversize 0 = 24 ∧ Reads oversize 0 ⟨72, 4⟩ ∧
    ¬Within zeroSize 0 ∧ ¬Within oversize 0 := by
  have fixed : step zeroSize (start 0) = start 0 := by
    have next : nextTag zeroSize 8 = 8 := by decide
    rw [start,(step_other (by decide) _).1,next]
  have second : step oversize (start 0) = ⟨.tag 72, Globals.initial⟩ := by
    have next : nextTag oversize 8 = 72 := by decide
    rw [start,(step_other (by decide) _).1,next]
  have forever : ¬∃ g, Returns zeroSize 0 g := by
    rintro ⟨g,n,ended⟩
    rw [Function.iterate_fixed fixed n] at ended
    simp [start] at ended
  have beyond : Reads oversize 0 ⟨72, 4⟩ := by
    refine Or.inr ⟨1,?_⟩
    rw [Function.iterate_one,second]
    simp [reads]
  have size : totalSize oversize 0 = 24 := by decide
  refine ⟨by decide,forever,size,beyond,fun within => forever within.returns,fun within => ?_⟩
  have inside := within.inside _ beyond
  rw [size] at inside
  exact absurd inside (by decide)

end LuaKernel.Multiboot
