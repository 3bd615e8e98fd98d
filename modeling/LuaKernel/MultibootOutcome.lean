import Mathlib.Data.List.Basic
import LuaKernel.MultibootLayout

/-! What `get_multiboot_info` makes of a well-formed block: it looks at every tag and every mmap
entry once, in order, and the last one of each kind decides. -/
namespace LuaKernel.Multiboot

open Bytes

/-- Overwriting one variable along a list leaves its last value there. -/
theorem foldl_last (value : α → Option β) (xs : List α) (init : β) :
    xs.foldl (fun old x => (value x).getD old) init = (xs.filterMap value).getLast?.getD init := by
  induction xs generalizing init with
  | nil => rfl
  | cons x rest ih =>
    rw [List.foldl_cons,ih]
    cases found : value x with
    | none => simp [found]
    | some new => simp [found,List.getLast?_cons]

def Tag.mode : Tag → Option (List UInt8)
  | .vbe _ mode _ => some mode
  | _ => none

def Tag.address : Tag → Option Nat
  | .framebuffer addr _ => some addr
  | _ => none

/-- The end of available memory from 0x100000, as a 64-bit pointer. -/
def Entry.limit (e : Entry) : Option Nat :=
  if e.type = memoryAvailable ∧ e.addr = 0x100000 then some ((e.addr + e.len) % 2 ^ 64) else none

def lastMode (tags : List Tag) : List UInt8 :=
  (tags.filterMap Tag.mode).getLast?.getD (List.replicate sizeofVBEModeInfoBlock 0)

def lastLimit (tags : List Tag) : Nat :=
  ((tags.flatMap Tag.entries).filterMap Entry.limit).getLast?.getD 0

/-- The addresses of the FRAMEBUFFER tags that come while a VBE mode with a resolution is in
force. -/
def inForce (tags : List Tag) : List Nat :=
  (List.range tags.length).filterMap fun i =>
    if 0 < xResolution (lastMode (tags.take i)) then tags[i]?.bind Tag.address else none

def lastFramebuffer (tags : List Tag) : Nat := (inForce tags).getLast?.getD 0

def outcome (tags : List Tag) : Globals :=
  ⟨lastMode tags, lastFramebuffer tags, lastLimit tags⟩

theorem lastMode_append (tags : List Tag) (t : Tag) :
    lastMode (tags ++ [t]) = t.mode.getD (lastMode tags) := by
  cases found : t.mode with
  | none => simp [lastMode,found]
  | some mode => simp [lastMode,found]

theorem inForce_append (tags : List Tag) (t : Tag) :
    inForce (tags ++ [t]) = inForce tags ++
      if 0 < xResolution (lastMode tags) then t.address.toList else [] := by
  have before : (List.range tags.length).filterMap (fun i =>
      if 0 < xResolution (lastMode ((tags ++ [t]).take i)) then
        (tags ++ [t])[i]?.bind Tag.address else none) = inForce tags := by
    apply List.filterMap_congr
    intro i member
    have inside := List.mem_range.mp member
    rw [List.take_append_of_le_length (Nat.le_of_lt inside),List.getElem?_append_left inside]
  rw [inForce,List.length_append,List.length_singleton,List.range_succ,List.filterMap_append,before]
  congr 1
  by_cases shown : 0 < xResolution (lastMode tags)
  · cases found : t.address <;> simp [shown,found]
  · simp [shown]

theorem entry_apply (e : Entry) (g : Globals) :
    e.apply g = { g with heapEnd := e.limit.getD g.heapEnd } := by
  by_cases type : e.type = memoryAvailable
  · by_cases addr : e.addr = 0x100000 <;> simp [Entry.apply,Entry.limit,type,addr]
  · simp [Entry.apply,Entry.limit,type]

theorem entries_apply (entries : List Entry) (g : Globals) :
    entries.foldl Entry.apply g =
      { g with heapEnd := (entries.filterMap Entry.limit).getLast?.getD g.heapEnd } := by
  rw [← foldl_last]
  induction entries generalizing g with
  | nil => rfl
  | cons e rest ih => rw [List.foldl_cons,List.foldl_cons,ih,entry_apply]

theorem apply_modeinfo (t : Tag) (g : Globals) :
    (t.apply g).modeinfo = t.mode.getD g.modeinfo := by
  cases t with
  | mmap entrySize entryVersion entries => rw [Tag.apply,entries_apply]; rfl
  | vbe | other => rfl
  | framebuffer addr rest =>
    simp only [Tag.apply,Tag.mode]
    split <;> rfl

/-- Only FRAMEBUFFER tags move `fbmem`, and only under a mode with a resolution. -/
theorem apply_fbmem (t : Tag) (g : Globals) :
    (t.apply g).fbmem = if 0 < xResolution g.modeinfo then t.address.getD g.fbmem else g.fbmem := by
  cases t with
  | mmap entrySize entryVersion entries => simp [Tag.apply,entries_apply,Tag.address]
  | vbe | other => simp [Tag.apply,Tag.address]
  | framebuffer addr rest =>
    simp only [Tag.apply,Tag.address]
    split <;> simp

/-- One more tag acts on the outcome of those before it. -/
theorem outcome_append (tags : List Tag) (t : Tag) :
    t.apply (outcome tags) = outcome (tags ++ [t]) := by
  have mode : (t.apply (outcome tags)).modeinfo = lastMode (tags ++ [t]) := by
    rw [apply_modeinfo,lastMode_append,outcome]
  have fbmem : (t.apply (outcome tags)).fbmem = lastFramebuffer (tags ++ [t]) := by
    rw [apply_fbmem,lastFramebuffer,inForce_append,outcome]
    split
    · cases t.address <;> simp [lastFramebuffer]
    · simp [lastFramebuffer]
  have limit : (t.apply (outcome tags)).heapEnd = lastLimit (tags ++ [t]) := by
    rw [apply_heapEnd,entries_apply]
    simp only [outcome,lastLimit,List.flatMap_append,List.flatMap_singleton,List.filterMap_append,
      List.getLast?_append]
    cases (t.entries.filterMap Entry.limit).getLast? <;> simp
  have fields : outcome (tags ++ [t]) =
      ⟨lastMode (tags ++ [t]), lastFramebuffer (tags ++ [t]), lastLimit (tags ++ [t])⟩ := rfl
  rw [fields,← mode,← fbmem,← limit]

/-- The left-to-right effect of the tags, kind by kind. -/
theorem tags_outcome (before tags : List Tag) :
    tags.foldl Tag.apply (outcome before) = outcome (before ++ tags) := by
  induction tags generalizing before with
  | nil => rw [List.foldl_nil,List.append_nil]
  | cons t rest ih =>
    rw [List.foldl_cons,outcome_append,ih,List.append_assoc,List.singleton_append]

theorem outcome_of_tags (tags : List Tag) : tags.foldl Tag.apply Globals.initial = outcome tags :=
  tags_outcome [] tags

/-- On every well-formed block the walk looks at exactly its tags and their mmap entries, each
once and in order, and stops; the last of each kind decides. -/
theorem get_multiboot_info_walks (m : Memory) (information : Nat) (tags : List Tag)
    (wf : ∀ t ∈ tags, t.WellFormed) (laid : Laid m (information + 8) tags) :
    Walks m (start information) (places (information + 8) tags)
      ⟨.done, ⟨lastMode tags, lastFramebuffer tags, lastLimit tags⟩⟩ := by
  have walked := tags_walk tags (information + 8) Globals.initial wf laid
  rw [outcome_of_tags] at walked
  exact walked

def sampleVbe : Tag :=
  .vbe (List.replicate 520 0) (List.replicate 18 0 ++ [0, 4] ++ List.replicate 235 0) [0]

def sampleFramebuffer : Tag := .framebuffer 0xfd000000 (List.replicate 24 0)

def sampleMmap : Tag :=
  .mmap 24 0 [⟨0, 0x9f000, memoryAvailable, 0, []⟩, ⟨0x100000, 0x3ff00000, memoryAvailable, 0, []⟩]

theorem sampleVbe_wellFormed : sampleVbe.WellFormed :=
  ⟨⟨List.length_replicate,by decide +kernel⟩,by decide +kernel⟩

theorem sampleFramebuffer_wellFormed : sampleFramebuffer.WellFormed :=
  ⟨by simp [Tag.Shape,sampleFramebuffer],by decide +kernel⟩

theorem sampleMmap_wellFormed : sampleMmap.WellFormed := by
  refine ⟨⟨by decide,?_⟩,by simp [sampleMmap,Tag.size,Tag.body,Entry.bytes]⟩
  simp only [List.mem_cons,List.not_mem_nil,or_false]
  rintro e (rfl | rfl)
  · exact ⟨by decide,by decide,by decide,rfl⟩
  · exact ⟨by decide,by decide,by decide,rfl⟩

def sampleBlock : List Tag := [sampleVbe, sampleFramebuffer, sampleMmap]

theorem sampleBlock_wellFormed : ∀ t ∈ sampleBlock, t.WellFormed := by
  simp only [sampleBlock,List.mem_cons,List.not_mem_nil,or_false]
  rintro t (rfl | rfl | rfl)
  · exact sampleVbe_wellFormed
  · exact sampleFramebuffer_wellFormed
  · exact sampleMmap_wellFormed

theorem sampleBlock_walk :
    Walks (image 8 (block sampleBlock)) (start 0)
      [.tag 8, .tag 792, .tag 832, .entry 848, .entry 872]
      ⟨.done, ⟨lastMode sampleBlock, 0xfd000000, 0x40000000⟩⟩ := by
  have walked := get_multiboot_info_walks (image 8 (block sampleBlock)) 0 sampleBlock
    sampleBlock_wellFormed (block_laid sampleBlock 8 (image_holds 8 _))
  have seen : places (0 + 8) sampleBlock =
      [.tag 8, .tag 792, .tag 832, .entry 848, .entry 872] := by decide +kernel
  have fbmem : lastFramebuffer sampleBlock = 0xfd000000 := by decide
  have limit : lastLimit sampleBlock = 0x40000000 := by decide
  rwa [seen,fbmem,limit] at walked

end LuaKernel.Multiboot
