import Mathlib.Data.List.Pairwise
import LuaKernel.MultibootOutcome

/-! The heap `main` hands to SQLite: `heap_end` as the memory-map scan left it, the 64-bit
pointer difference to `heap_start`, and the `va_arg(ap, int)` that receives it. -/
namespace LuaKernel.HeapConfig

open Bytes Multiboot

/-- What the link gives: `.heap` is the last section of an image that starts at 0x100000,
and the small code model keeps every symbol below 2 GiB. -/
structure Image where
  heapStart : Nat
  above : 0x100000 ≤ heapStart
  below : heapStart < 2 ^ 31

/-- The members of `sqlite3GlobalConfig` that SQLITE_CONFIG_HEAP sets. -/
structure Config where
  pHeap : Nat
  nHeap : Int
  mnReq : Int
  deriving DecidableEq, Repr

/-- Each integer argument is read back as an `int`, whatever was passed. -/
def sqlite3ConfigHeap (pHeap nHeap mnReq : Nat) : Config :=
  let request := int32 mnReq
  ⟨pHeap, int32 nHeap, if request < 1 then 1 else if 2 ^ 12 < request then 2 ^ 12 else request⟩

/-- `heap_end - (u8*)&heap_start` in 64-bit pointer arithmetic. -/
def heapLength (heapStart heapEnd : Nat) : Nat := (heapEnd + 2 ^ 64 - heapStart) % 2 ^ 64

def mainHeap (heapStart heapEnd : Nat) : Config :=
  sqlite3ConfigHeap heapStart (heapLength heapStart heapEnd) 64

def Available (e : Entry) : Prop := e.type = memoryAvailable

def Disjoint (a b : Entry) : Prop := a.addr + a.len ≤ b.addr ∨ b.addr + b.len ≤ a.addr

structure MemoryMap (entries : List Entry) : Prop where
  bounded : ∀ e ∈ entries, e.addr + e.len ≤ 2 ^ 64
  nonempty : ∀ e ∈ entries, Available e → 0 < e.len
  disjoint : entries.Pairwise fun a b => Available a → Available b → Disjoint a b

def HeapInside (c : Config) (e : Entry) : Prop :=
  0 < c.nHeap ∧ e.addr ≤ c.pHeap ∧ c.pHeap + c.nHeap ≤ e.addr + e.len ∧
    c.pHeap + c.nHeap ≤ 2 ^ 32

def scan (heapEnd : Nat) (e : Entry) : Nat :=
  e.limit.getD heapEnd

theorem scan_last (entries : List Entry) (heapEnd : Nat) :
    entries.foldl scan heapEnd = (entries.filterMap Entry.limit).getLast?.getD heapEnd := by
  rw [← foldl_last]
  rfl

theorem tags_heapEnd (tags : List Tag) :
    (tags.foldl Tag.apply Globals.initial).heapEnd = (tags.flatMap Tag.entries).foldl scan 0 := by
  rw [outcome_of_tags,scan_last]
  rfl

theorem limit_some (e : Entry) (limit : Nat) : e.limit = some limit ↔
    (Available e ∧ e.addr = 0x100000) ∧ (e.addr + e.len) % 2 ^ 64 = limit := by
  simp [Entry.limit,Available]

/-- Entries that are not available memory at 0x100000 are passed over. -/
theorem scan_skip (entries : List Entry) (heapEnd : Nat)
    (skip : ∀ e ∈ entries, Available e → e.addr ≠ 0x100000) :
    entries.foldl scan heapEnd = heapEnd := by
  have none : entries.filterMap Entry.limit = [] := by
    rw [List.filterMap_eq_nil_iff]
    intro e member
    have unseen : ¬(e.type = memoryAvailable ∧ e.addr = 0x100000) :=
      fun hit => skip e member hit.1 hit.2
    rw [Entry.limit,if_neg unseen]
  rw [scan_last,none]
  rfl

/-- The scan ends with an entry at 0x100000 or keeps its initial value. -/
theorem scan_origin (entries : List Entry) (heapEnd : Nat) :
    entries.foldl scan heapEnd = heapEnd ∨
      ∃ e ∈ entries, Available e ∧ e.addr = 0x100000 ∧
        entries.foldl scan heapEnd = (e.addr + e.len) % 2 ^ 64 := by
  rw [scan_last]
  cases found : (entries.filterMap Entry.limit).getLast? with
  | none => exact Or.inl rfl
  | some limit =>
    obtain ⟨e,member,value⟩ := List.mem_filterMap.mp (List.mem_of_getLast? found)
    obtain ⟨⟨available,addr⟩,same⟩ := (limit_some e limit).mp value
    exact Or.inr ⟨e,member,available,addr,same.symm⟩

/-- In a well-formed map no second available entry can start at 0x100000. -/
theorem scan_hit (entries : List Entry) (map : MemoryMap entries) (e : Entry)
    (member : e ∈ entries) (available : Available e) (addr : e.addr = 0x100000)
    (heapEnd : Nat) : entries.foldl scan heapEnd = (e.addr + e.len) % 2 ^ 64 := by
  obtain ⟨before,after,rfl⟩ := List.append_of_mem member
  have apart := (List.pairwise_append.mp map.disjoint).2.1
  have later : ∀ x ∈ after, Available x → x.addr ≠ 0x100000 := by
    intro x hx xAvailable xAddr
    have separate := (List.pairwise_cons.mp apart).1 x hx available xAvailable
    have := map.nonempty e (by simp) available
    have := map.nonempty x (by simp [hx]) xAvailable
    rw [Disjoint] at separate
    omega
  have type : e.type = memoryAvailable := available
  rw [List.foldl_append,List.foldl_cons,scan_skip after _ later]
  simp only [scan,Entry.limit,type,addr,and_self,↓reduceIte,Option.getD_some]

theorem disjoint_of_ne (entries : List Entry) (map : MemoryMap entries) (a b : Entry)
    (ha : a ∈ entries) (hb : b ∈ entries) (availableA : Available a) (availableB : Available b)
    (different : a.addr ≠ b.addr) : Disjoint a b := by
  have : Std.Symm fun a b : Entry => Available a → Available b → Disjoint a b :=
    ⟨fun _ _ apart availableB availableA => (apart availableA availableB).symm⟩
  exact map.disjoint.forall ha hb (fun same => different (congrArg Entry.addr same))
    availableA availableB

/-- The `int` SQLite receives, in terms of the bytes from `heap_start` to `heap_end`. -/
theorem nHeap_of_length (heapStart heapEnd length : Nat) (below : heapStart < 2 ^ 64)
    (value : heapEnd % 2 ^ 64 = (heapStart + length) % 2 ^ 64) (bound : heapEnd < 2 ^ 64) :
    (mainHeap heapStart heapEnd).nHeap = int32 length := by
  have same : heapLength heapStart heapEnd % 2 ^ 32 = length % 2 ^ 32 := by
    simp only [heapLength]
    omega
  simp only [mainHeap,sqlite3ConfigHeap,int32,same]

/-- When the entry that holds the heap starts at 0x100000, only the truncation can fail. -/
theorem inside_of_hit (image : Image) (e : Entry) (inside : image.heapStart < e.addr + e.len)
    (addr : e.addr = 0x100000) (bounded : e.addr + e.len ≤ 2 ^ 64) :
    HeapInside (mainHeap image.heapStart ((e.addr + e.len) % 2 ^ 64)) e ↔
      0 < (e.addr + e.len - image.heapStart) % 2 ^ 32 ∧
        (e.addr + e.len - image.heapStart) % 2 ^ 32 < 2 ^ 31 := by
  have above := image.above
  have below := image.below
  have length := nHeap_of_length image.heapStart ((e.addr + e.len) % 2 ^ 64)
    (e.addr + e.len - image.heapStart) (by omega) (by omega) (by omega)
  rw [HeapInside,length]
  simp only [mainHeap,sqlite3ConfigHeap,int32]
  split <;> omega

/-- Otherwise `heap_end` lies at or below `heap_start` and the length is not positive. -/
theorem outside_of_miss (image : Image) (e : Entry) (heapEnd : Nat)
    (behind : heapEnd ≤ image.heapStart) : ¬HeapInside (mainHeap image.heapStart heapEnd) e := by
  have below := image.below
  rintro ⟨positive,-⟩
  have same : heapLength image.heapStart heapEnd % 2 ^ 32 =
      (2 ^ 32 - (image.heapStart - heapEnd)) % 2 ^ 32 := by
    simp only [heapLength]
    omega
  simp only [mainHeap,sqlite3ConfigHeap,int32,same] at positive
  split at positive <;> omega

theorem scanned_inside_iff (image : Image) (entries : List Entry) (map : MemoryMap entries)
    (e : Entry) (member : e ∈ entries) (available : Available e)
    (lower : e.addr ≤ image.heapStart) (upper : image.heapStart < e.addr + e.len) :
    HeapInside (mainHeap image.heapStart (entries.foldl scan 0)) e ↔
      e.addr = 0x100000 ∧ 0 < (e.addr + e.len - image.heapStart) % 2 ^ 32 ∧
        (e.addr + e.len - image.heapStart) % 2 ^ 32 < 2 ^ 31 := by
  by_cases addr : e.addr = 0x100000
  · rw [scan_hit entries map e member available addr,
      inside_of_hit image e upper addr (map.bounded e member)]
    simp [addr]
  · simp only [addr,false_and,iff_false]
    apply outside_of_miss
    rcases scan_origin entries 0 with none | ⟨x,hx,xAvailable,xAddr,value⟩
    · rw [none]; omega
    · have apart := disjoint_of_ne entries map x e hx member xAvailable available
        (fun same => addr (same.symm.trans xAddr))
      have := map.bounded x hx
      have := map.nonempty x hx xAvailable
      have := image.above
      rw [Disjoint] at apart
      rw [value]
      omega

/-- For every well-formed block: `main` gives SQLite a heap inside the available entry
that holds `heap_start` exactly when that entry starts at 0x100000 and the low word of the
length is a positive `int`. -/
theorem main_heap_inside_iff (image : Image) (m : Memory) (information : Nat) (tags : List Tag)
    (wf : ∀ t ∈ tags, t.WellFormed) (laid : Laid m (information + 8) tags)
    (map : MemoryMap (tags.flatMap Tag.entries)) (e : Entry)
    (member : e ∈ tags.flatMap Tag.entries) (available : Available e)
    (lower : e.addr ≤ image.heapStart) (upper : image.heapStart < e.addr + e.len) :
    ∃ g, Returns m information g ∧
      (HeapInside (mainHeap image.heapStart g.heapEnd) e ↔
        e.addr = 0x100000 ∧ 0 < (e.addr + e.len - image.heapStart) % 2 ^ 32 ∧
          (e.addr + e.len - image.heapStart) % 2 ^ 32 < 2 ^ 31) := by
  refine ⟨_,returns_of_laid tags wf laid,?_⟩
  rw [tags_heapEnd]
  exact scanned_inside_iff image _ map e member available lower upper

/-- A block with one mmap tag: conventional memory, then `len` bytes from `addr`. -/
def sampleEntry (addr len : Nat) : Entry := ⟨addr, len, memoryAvailable, 0, []⟩

def sampleTag (addr len : Nat) : Tag :=
  .mmap 24 0 [sampleEntry 0 0x9f000, sampleEntry addr len]

def sampleMemory (addr len : Nat) : Memory :=
  Bytes.image 8 ((sampleTag addr len).bytes ++ encode tagTypeEnd 4)

def sampleImage : Image := ⟨0xdcaa00, by decide, by decide⟩

theorem sample_wellFormed (addr len : Nat) (addrFits : addr < 2 ^ 64) (lenFits : len < 2 ^ 64) :
    ∀ t ∈ [sampleTag addr len], t.WellFormed := by
  intro t member
  rw [List.mem_singleton.mp member]
  refine ⟨⟨by decide,fun e among => ?_⟩,
    by simp [sampleTag,Tag.size,Tag.body,Entry.bytes,sampleEntry]⟩
  simp only [List.mem_cons,List.not_mem_nil,or_false] at among
  rcases among with rfl | rfl
  · exact ⟨by decide,by decide,by decide,rfl⟩
  · exact ⟨addrFits,lenFits,by simp [sampleEntry,memoryAvailable],rfl⟩

theorem sample_laid (addr len : Nat) :
    Laid (sampleMemory addr len) (0 + 8) [sampleTag addr len] := by
  have held := holds_append.mp (image_holds 8 ((sampleTag addr len).bytes ++ encode tagTypeEnd 4))
  have size : (sampleTag addr len).bytes.length = padded (sampleTag addr len).size := by
    simp [sampleTag,Tag.bytes,Tag.size,Tag.body,Entry.bytes,sampleEntry,padded]
  exact ⟨held.1,size ▸ held.2⟩

theorem sample_map (addr len : Nat) (above : 0x9f000 ≤ addr) (positive : 0 < len)
    (bounded : addr + len ≤ 2 ^ 64) :
    MemoryMap ([sampleTag addr len].flatMap Tag.entries) := by
  constructor
  · simp [Tag.entries,sampleTag,sampleEntry]
    omega
  · simp [Tag.entries,sampleTag,sampleEntry]
    omega
  · simp [Tag.entries,sampleTag,sampleEntry,Disjoint]
    omega

/-- The 1 GiB machine of the comment in the scan. -/
theorem main_heap_one_gibibyte :
    ∃ g, Returns (sampleMemory 0x100000 0x3fef0000) 0 g ∧
      HeapInside (mainHeap 0xdcaa00 g.heapEnd) (sampleEntry 0x100000 0x3fef0000) := by
  obtain ⟨g,returned,condition⟩ := main_heap_inside_iff sampleImage _ 0
    [sampleTag 0x100000 0x3fef0000] (sample_wellFormed _ _ (by decide) (by decide))
    (sample_laid _ _) (sample_map _ _ (by decide) (by decide) (by decide))
    (sampleEntry 0x100000 0x3fef0000) (by simp [Tag.entries,sampleTag]) rfl (by decide) (by decide)
  exact ⟨g,returned,condition.mpr (by decide)⟩

/-- With 3 GiB from 0x100000 the block is as well formed, and SQLite gets a negative length. -/
theorem main_heap_three_gibibytes :
    (∀ t ∈ [sampleTag 0x100000 0xc0000000], t.WellFormed) ∧
    Laid (sampleMemory 0x100000 0xc0000000) (0 + 8) [sampleTag 0x100000 0xc0000000] ∧
    MemoryMap ([sampleTag 0x100000 0xc0000000].flatMap Tag.entries) ∧
    sampleEntry 0x100000 0xc0000000 ∈ [sampleTag 0x100000 0xc0000000].flatMap Tag.entries ∧
    Available (sampleEntry 0x100000 0xc0000000) ∧
    0x100000 ≤ sampleImage.heapStart ∧ sampleImage.heapStart < 0x100000 + 0xc0000000 ∧
    ∃ g, Returns (sampleMemory 0x100000 0xc0000000) 0 g ∧
      (mainHeap sampleImage.heapStart g.heapEnd).nHeap < 0 ∧
      ¬HeapInside (mainHeap sampleImage.heapStart g.heapEnd) (sampleEntry 0x100000 0xc0000000) := by
  have wf := sample_wellFormed 0x100000 0xc0000000 (by decide) (by decide)
  have laid := sample_laid 0x100000 0xc0000000
  refine ⟨wf,laid,sample_map _ _ (by decide) (by decide) (by decide),
    by simp [Tag.entries,sampleTag],rfl,by decide,by decide,_,returns_of_laid _ wf laid,?_⟩
  rw [tags_heapEnd]
  have negative : (mainHeap sampleImage.heapStart
      (([sampleTag 0x100000 0xc0000000].flatMap Tag.entries).foldl scan 0)).nHeap < 0 := by decide
  exact ⟨negative,fun inside => Int.lt_irrefl _ (Int.lt_trans inside.1 negative)⟩

end LuaKernel.HeapConfig
