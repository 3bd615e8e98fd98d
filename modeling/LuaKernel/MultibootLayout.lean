import LuaKernel.Multiboot

/-! Well-formed boot information as a list of tags, and the walk over its bytes. Padding
bytes, the tails of oversized mmap entries and the bodies of tags the kernel does not read
are arbitrary. -/
namespace LuaKernel.Multiboot

open Bytes

/-- One memory-map entry; `tail` is what `entry_size` adds to the 24 bytes of the struct. -/
structure Entry where
  addr : Nat
  len : Nat
  type : Nat
  zero : Nat
  tail : List UInt8

def Entry.bytes (e : Entry) : List UInt8 :=
  encode e.addr 8 ++ (encode e.len 8 ++ (encode e.type 4 ++ (encode e.zero 4 ++ e.tail)))

structure Entry.WellFormed (entrySize : Nat) (e : Entry) : Prop where
  addr : e.addr < 2 ^ 64
  len : e.len < 2 ^ 64
  type : e.type < 2 ^ 32
  size : 24 + e.tail.length = entrySize

def Entry.apply (g : Globals) (e : Entry) : Globals :=
  if e.type = memoryAvailable then
    if e.addr = 0x100000 then { g with heapEnd := (e.addr + e.len) % 2 ^ 64 } else g
  else g

inductive Tag where
  | mmap (entrySize entryVersion : Nat) (entries : List Entry)
  /-- `head` runs up to `vbe_mode_info`, `mode` is the copied block, `rest` what follows. -/
  | vbe (head mode rest : List UInt8)
  | framebuffer (addr : Nat) (rest : List UInt8)
  | other (type : Nat) (body : List UInt8)

def Tag.type : Tag → Nat
  | .mmap .. => tagTypeMmap
  | .vbe .. => tagTypeVbe
  | .framebuffer .. => tagTypeFramebuffer
  | .other type _ => type

def Tag.body : Tag → List UInt8
  | .mmap entrySize entryVersion entries =>
    encode entrySize 4 ++ (encode entryVersion 4 ++ entries.flatMap Entry.bytes)
  | .vbe head mode rest => head ++ (mode ++ rest)
  | .framebuffer addr rest => encode addr 8 ++ rest
  | .other _ body => body

def Tag.size (t : Tag) : Nat := 8 + t.body.length

def Tag.bytes (t : Tag) : List UInt8 := encode t.type 4 ++ (encode t.size 4 ++ t.body)

def Tag.Shape : Tag → Prop
  | .mmap entrySize _ entries =>
    entrySize < 2 ^ 32 ∧ ∀ e ∈ entries, e.WellFormed entrySize
  | .vbe head mode _ => head.length = 520 ∧ mode.length = sizeofVBEModeInfoBlock
  | .framebuffer addr _ => addr < 2 ^ 64
  | .other type _ => type < 2 ^ 32 ∧ type ≠ tagTypeEnd ∧ type ≠ tagTypeMmap ∧
      type ≠ tagTypeVbe ∧ type ≠ tagTypeFramebuffer

structure Tag.WellFormed (t : Tag) : Prop where
  shape : t.Shape
  size : t.size < 2 ^ 32

def Tag.apply (g : Globals) : Tag → Globals
  | .mmap _ _ entries => entries.foldl Entry.apply g
  | .vbe _ mode _ => { g with modeinfo := mode }
  | .framebuffer addr _ => if 0 < xResolution g.modeinfo then { g with fbmem := addr } else g
  | .other .. => g

def padded (size : Nat) : Nat := (size + 7) / 8 * 8

/-- The tags stand one after the other, each at the next multiple of eight, before an
END tag. -/
def Laid (m : Memory) : Nat → List Tag → Prop
  | address, [] => Holds m address (encode tagTypeEnd 4)
  | address, t :: rest => Holds m address t.bytes ∧ Laid m (address + padded t.size) rest

def block : List Tag → List UInt8
  | [] => encode tagTypeEnd 4
  | t :: rest => t.bytes ++ (List.replicate (padded t.size - t.size) 0 ++ block rest)

variable {m : Memory} {t : Tag}

theorem block_laid (tags : List Tag) (a : Nat) (held : Holds m a (block tags)) :
    Laid m a tags := by
  induction tags generalizing a with
  | nil => exact held
  | cons t rest ih =>
    rw [block,holds_append,holds_append] at held
    obtain ⟨first,-,later⟩ := held
    have size : t.bytes.length = t.size := by simp [Tag.bytes,Tag.size]; omega
    have padding : t.size ≤ padded t.size := by simp only [padded]; omega
    refine ⟨first,ih _ ?_⟩
    rw [List.length_replicate,size,Nat.add_assoc,Nat.add_sub_cancel' padding] at later
    exact later

theorem Tag.type_lt (wf : t.WellFormed) : t.type < 2 ^ 32 := by
  cases t with
  | other type body => exact wf.shape.1
  | _ => simp [Tag.type,tagTypeMmap,tagTypeVbe,tagTypeFramebuffer]

theorem tag_header (wf : t.WellFormed) (held : Holds m a t.bytes) :
    tagType m a = t.type ∧ tagSize m a = t.size ∧ Holds m (a + 8) t.body := by
  rw [Tag.bytes,holds_append,holds_append] at held
  obtain ⟨type,size,body⟩ := held
  simp only [encode_length,Nat.add_assoc] at size body
  exact ⟨load_u32 type (Tag.type_lt wf),load_u32 size wf.size,body⟩

theorem nextTag_padded (size : tagSize m a = t.size) : nextTag m a = a + padded t.size := by
  simp only [nextTag,size,padded]
  split <;> omega

@[simp] theorem Entry.bytes_length (wf : Entry.WellFormed entrySize e) :
    e.bytes.length = entrySize := by
  have := wf.size
  simp [Entry.bytes]
  omega

theorem handleEntry_apply (wf : Entry.WellFormed entrySize e) (held : Holds m a e.bytes)
    (g : Globals) : handleEntry m a g = e.apply g := by
  simp only [Entry.bytes,holds_append,encode_length,Nat.add_assoc] at held
  obtain ⟨addr,len,type,-,-⟩ := held
  simp only [handleEntry,Entry.apply,load_u64 addr wf.addr,load_u64 len wf.len,
    load_u32 type wf.type]

/-- Where the entries of an mmap tag stand, from address `e` on. -/
def entryPlaces (entrySize e : Nat) : List Entry → List Visit
  | [] => []
  | _ :: rest => .entry e :: entryPlaces entrySize (e + entrySize) rest

def Tag.places (a : Nat) : Tag → List Visit
  | .mmap entrySize _ entries => .tag a :: entryPlaces entrySize (a + 16) entries
  | _ => [.tag a]

def places (a : Nat) : List Tag → List Visit
  | [] => []
  | t :: rest => t.places a ++ places (a + padded t.size) rest

/-- The inner loop visits the remaining entries in order and leaves at the tag's end. -/
theorem entries_walk (entries : List Entry) (entrySize : Nat) (a e : Nat) (g : Globals)
    (stride : load m (a + 8) 4 = entrySize)
    (wf : ∀ x ∈ entries, Entry.WellFormed entrySize x)
    (held : Holds m e (entries.flatMap Entry.bytes))
    (stop : e + entries.length * entrySize = a + tagSize m a) :
    Walks m ⟨.entry a e, g⟩ (entryPlaces entrySize e entries)
      ⟨.tag (nextTag m a), entries.foldl Entry.apply g⟩ := by
  induction entries generalizing e g with
  | nil =>
    have out : ¬e < a + tagSize m a := by simp at stop; omega
    have last := Walks.step m ⟨.entry a e, g⟩
    simpa [visit,step,out,entryPlaces] using last
  | cons x rest ih =>
    have first := wf x (by simp)
    have size := first.size
    rw [List.flatMap_cons,holds_append,Entry.bytes_length first] at held
    rw [List.length_cons,Nat.succ_mul] at stop
    have inside : e < a + tagSize m a := by omega
    have moved := Walks.step m ⟨.entry a e, g⟩
    simp only [visit,step,inside,↓reduceIte,stride,handleEntry_apply first held.1] at moved
    exact moved.trans (ih (e + entrySize) (x.apply g) (fun y member => wf y (by simp [member]))
      held.2 (by omega))

/-- One tag is consumed whole, whatever its kind. -/
theorem tag_walk (wf : t.WellFormed) (held : Holds m a t.bytes) (g : Globals) :
    Walks m ⟨.tag a, g⟩ (t.places a) ⟨.tag (a + padded t.size), t.apply g⟩ := by
  obtain ⟨type,size,body⟩ := tag_header wf held
  have next := nextTag_padded size
  have moved := Walks.step m ⟨.tag a, g⟩
  cases t with
  | mmap entrySize entryVersion entries =>
    obtain ⟨fits,good⟩ := wf.shape
    simp only [Tag.body,holds_append,encode_length,Nat.add_assoc] at body
    obtain ⟨stride,-,entriesHeld⟩ := body
    have entriesSize : (entries.flatMap Entry.bytes).length = entries.length * entrySize := by
      rw [List.length_flatMap]
      have same : entries.map (fun e => e.bytes.length) = entries.map (fun _ => entrySize) :=
        List.map_congr_left fun e member => Entry.bytes_length (good e member)
      rw [same,List.map_const',List.sum_replicate_nat]
    have stop : a + 16 + entries.length * entrySize = a + tagSize m a := by
      rw [size,← entriesSize]
      simp [Tag.size,Tag.body]
      omega
    have inner := entries_walk entries entrySize a (a + 16) g (load_u32 stride fits) good
      entriesHeld stop
    simp [visit,step,type,Tag.type,tagTypeEnd,tagTypeMmap,tagTypeVbe,tagTypeFramebuffer] at moved
    rw [next] at inner
    exact moved.trans inner
  | vbe head mode rest =>
    obtain ⟨headLength,modeLength⟩ := wf.shape
    simp only [Tag.body,holds_append,headLength,Nat.add_assoc] at body
    have copied := copy_holds body.2.1
    rw [modeLength] at copied
    simpa [visit,step,type,Tag.type,tagTypeEnd,tagTypeVbe,next,copied,Tag.apply,Tag.places]
      using moved
  | framebuffer addr rest =>
    simp only [Tag.body,holds_append] at body
    simpa [visit,step,type,Tag.type,tagTypeEnd,tagTypeVbe,tagTypeFramebuffer,next,
      load_u64 body.1 wf.shape,Tag.apply,Tag.places] using moved
  | other kind payload =>
    obtain ⟨-,notEnd,notMmap,notVbe,notFramebuffer⟩ := wf.shape
    simpa [visit,step,type,Tag.type,notEnd,notMmap,notVbe,notFramebuffer,next,Tag.apply,
      Tag.places] using moved

theorem tags_walk (tags : List Tag) (a : Nat) (g : Globals)
    (wf : ∀ t ∈ tags, t.WellFormed) (laid : Laid m a tags) :
    Walks m ⟨.tag a, g⟩ (places a tags) ⟨.done, tags.foldl Tag.apply g⟩ := by
  induction tags generalizing a g with
  | nil =>
    have stop : tagType m a = tagTypeEnd := load_u32 laid (by decide)
    have last := Walks.step m ⟨.tag a, g⟩
    simpa [visit,step,stop,places] using last
  | cons t rest ih =>
    have first := tag_walk (wf t (by simp)) laid.1 g
    exact first.trans (ih (a + padded t.size) (t.apply g)
      (fun u member => wf u (by simp [member])) laid.2)

/-- On a well-formed block the call returns the left-to-right effect of its tags. -/
theorem returns_of_laid (tags : List Tag) (wf : ∀ t ∈ tags, t.WellFormed)
    (laid : Laid m (information + 8) tags) :
    Returns m information (tags.foldl Tag.apply Globals.initial) := by
  obtain ⟨n,reached,-⟩ := tags_walk tags (information + 8) Globals.initial wf laid
  exact ⟨n,reached⟩

def Tag.entries : Tag → List Entry
  | .mmap _ _ entries => entries
  | _ => []

theorem apply_heapEnd (t : Tag) (g : Globals) :
    (t.apply g).heapEnd = (t.entries.foldl Entry.apply g).heapEnd := by
  cases t with
  | mmap entrySize entryVersion entries => rfl
  | vbe head mode rest => rfl
  | framebuffer addr rest =>
    simp only [Tag.apply,Tag.entries,List.foldl_nil]
    split <;> rfl
  | other type body => rfl

end LuaKernel.Multiboot
