import LuaKernel.MultibootOutcome

/-! Does the order of the tags matter? The framebuffer's address is taken only under a VBE mode
seen before it, so it does when a FRAMEBUFFER tag comes first. -/
namespace LuaKernel.Multiboot

open Bytes

def Tag.memoryMap : Tag → Option (List Entry)
  | .mmap _ _ entries => some entries
  | _ => none

structure Single (tags : List Tag) : Prop where
  vbe : (tags.filterMap Tag.mode).length ≤ 1
  framebuffer : (tags.filterMap Tag.address).length ≤ 1
  mmap : (tags.filterMap Tag.memoryMap).length ≤ 1

/-- A VBE tag with a resolution comes before a FRAMEBUFFER tag with an address. -/
def Shown (tags : List Tag) : Prop :=
  ∃ vbe framebuffer mode addr, [vbe,framebuffer].Sublist tags ∧ vbe.mode = some mode ∧
    framebuffer.address = some addr ∧ 0 < xResolution mode ∧ addr ≠ 0

theorem perm_short {xs ys : List α} (perm : xs.Perm ys) (short : xs.length ≤ 1) : xs = ys := by
  cases xs with
  | nil => exact (List.nil_perm.mp perm).symm
  | cons x rest =>
    obtain rfl : rest = [] := by simpa using short
    exact List.singleton_perm.mp perm |>.symm ▸ rfl

theorem short_mem {xs : List α} (short : xs.length ≤ 1) (member : x ∈ xs) : xs = [x] := by
  cases xs with
  | nil => contradiction
  | cons y rest =>
    obtain rfl : rest = [] := by simpa using short
    rw [List.mem_singleton.mp member]

theorem pair_sublist {xs : List α} :
    [x,y].Sublist xs ↔ ∃ before after, xs = before ++ y :: after ∧ x ∈ before := by
  constructor
  · intro pair
    obtain ⟨first,second,rfl,member,rest⟩ := List.cons_sublist_iff.mp pair
    obtain ⟨middle,after,rfl⟩ := List.append_of_mem (List.singleton_sublist.mp rest)
    exact ⟨first ++ middle,after,by simp,by simp [member]⟩
  · rintro ⟨before,after,rfl,member⟩
    exact (List.singleton_sublist.mpr member).append (List.singleton_sublist.mpr (by simp))

theorem mem_inForce (tags : List Tag) (addr : Nat) :
    addr ∈ inForce tags ↔ ∃ before t after, tags = before ++ t :: after ∧
      t.address = some addr ∧ 0 < xResolution (lastMode before) := by
  simp only [inForce,List.mem_filterMap,List.mem_range,Option.ite_none_right_eq_some,
    Option.bind_eq_some_iff]
  constructor
  · rintro ⟨i,inside,shown,t,found,address⟩
    obtain ⟨bound,rfl⟩ := List.getElem?_eq_some_iff.mp found
    exact ⟨tags.take i,tags[i],tags.drop (i + 1),by simp,address,shown⟩
  · rintro ⟨before,t,after,rfl,address,shown⟩
    exact ⟨before.length,by simp,by simpa using shown,t,by simp,address⟩

/-- The address set is the one of a FRAMEBUFFER tag, under a mode a VBE tag has set. -/
theorem lastFramebuffer_shown (tags : List Tag) (set : lastFramebuffer tags ≠ 0) :
    Shown tags ∧ lastFramebuffer tags ∈ tags.filterMap Tag.address := by
  obtain ⟨addr,last⟩ : ∃ addr, (inForce tags).getLast? = some addr := by
    cases last : (inForce tags).getLast? with
    | none => simp [lastFramebuffer,last] at set
    | some addr => exact ⟨addr,rfl⟩
  have value : lastFramebuffer tags = addr := by simp [lastFramebuffer,last]
  rw [value] at set ⊢
  obtain ⟨before,t,after,rfl,address,shown⟩ :=
    (mem_inForce tags addr).mp (List.mem_of_getLast? last)
  refine ⟨?_,List.mem_filterMap.mpr ⟨t,by simp,address⟩⟩
  cases mode : (before.filterMap Tag.mode).getLast? with
  | none =>
    have none : lastMode before = List.replicate sizeofVBEModeInfoBlock 0 := by
      simp [lastMode,mode]
    rw [none] at shown
    exact absurd shown (by decide)
  | some block =>
    obtain ⟨vbe,member,isVbe⟩ := List.mem_filterMap.mp (List.mem_of_getLast? mode)
    have force : lastMode before = block := by simp [lastMode,mode]
    exact ⟨vbe,t,block,addr,pair_sublist.mpr ⟨before,after,rfl,member⟩,isVbe,address,
      force ▸ shown,set⟩

theorem lastFramebuffer_of_shown (tags : List Tag) (single : Single tags) (shown : Shown tags) :
    lastFramebuffer tags ≠ 0 := by
  obtain ⟨vbe,framebuffer,mode,addr,pair,isVbe,address,resolution,set⟩ := shown
  obtain ⟨before,after,rfl,earlier⟩ := pair_sublist.mp pair
  have force : lastMode before = mode := by
    have one : (before.filterMap Tag.mode).length ≤ 1 := by
      have := single.vbe
      rw [List.filterMap_append,List.length_append] at this
      omega
    simp [lastMode,short_mem one (List.mem_filterMap.mpr ⟨vbe,earlier,isVbe⟩)]
  have member : addr ∈ inForce (before ++ framebuffer :: after) :=
    (mem_inForce _ addr).mpr ⟨before,framebuffer,after,rfl,address,force ▸ resolution⟩
  obtain ⟨last,found⟩ : ∃ last, (inForce (before ++ framebuffer :: after)).getLast? = some last :=
    Option.isSome_iff_exists.mp (List.getLast?_isSome.mpr (List.ne_nil_of_mem member))
  obtain ⟨earlier',t,later,split,lastAddress,-⟩ :=
    (mem_inForce _ last).mp (List.mem_of_getLast? found)
  have only := short_mem single.framebuffer
    (List.mem_filterMap.mpr ⟨framebuffer,by simp,address⟩)
  have same : last ∈ [addr] := only ▸ List.mem_filterMap.mpr ⟨t,by simp [split],lastAddress⟩
  rw [lastFramebuffer,found,Option.getD_some,List.mem_singleton.mp same]
  exact set

theorem lastLimit_perm (tags tags' : List Tag) (single : Single tags) (perm : tags.Perm tags') :
    lastLimit tags = lastLimit tags' := by
  have entries (tags : List Tag) :
      tags.flatMap Tag.entries = (tags.filterMap Tag.memoryMap).flatten := by
    induction tags with
    | nil => rfl
    | cons t rest ih => cases t <;> simp [List.filterMap_cons,Tag.entries,Tag.memoryMap,ih]
  rw [lastLimit,lastLimit,entries,entries,perm_short (perm.filterMap Tag.memoryMap) single.mmap]

theorem Single.perm (single : Single tags) (perm : tags.Perm tags') : Single tags' := by
  refine ⟨?_,?_,?_⟩
  · rw [← (perm.filterMap Tag.mode).length_eq]
    exact single.vbe
  · rw [← (perm.filterMap Tag.address).length_eq]
    exact single.framebuffer
  · rw [← (perm.filterMap Tag.memoryMap).length_eq]
    exact single.mmap

theorem lastFramebuffer_hidden (tags : List Tag) (hidden : ¬Shown tags) :
    lastFramebuffer tags = 0 := by
  by_contra set
  exact hidden (lastFramebuffer_shown tags set).1

/-- Where the address is set in both orders it is that of the one FRAMEBUFFER tag. -/
theorem lastFramebuffer_perm (tags tags' : List Tag) (single : Single tags)
    (perm : tags.Perm tags') :
    lastFramebuffer tags = lastFramebuffer tags' ↔ (Shown tags ↔ Shown tags') := by
  have set := lastFramebuffer_of_shown tags single
  have set' := lastFramebuffer_of_shown tags' (single.perm perm)
  constructor
  · intro same
    constructor
    · exact fun shown => (lastFramebuffer_shown tags' (same ▸ set shown)).1
    · exact fun shown => (lastFramebuffer_shown tags (same.symm ▸ set' shown)).1
  · intro both
    by_cases shown : Shown tags
    · have member := (lastFramebuffer_shown tags (set shown)).2
      have member' := (lastFramebuffer_shown tags' (set' (both.mp shown))).2
      rw [← perm_short (perm.filterMap Tag.address) single.framebuffer,
        short_mem single.framebuffer member] at member'
      exact (List.mem_singleton.mp member').symm
    · rw [lastFramebuffer_hidden tags shown,
        lastFramebuffer_hidden tags' fun shown' => shown (both.mpr shown')]

/-- With at most one tag of each kind, two orders of the same tags leave the same variables
exactly when both or neither have a VBE mode before the framebuffer it shows. -/
theorem order_irrelevant_iff (m m' : Memory) (information information' : Nat)
    (tags tags' : List Tag) (wf : ∀ t ∈ tags, t.WellFormed) (single : Single tags)
    (perm : tags.Perm tags') (laid : Laid m (information + 8) tags)
    (laid' : Laid m' (information' + 8) tags') :
    ∃ g g', Returns m information g ∧ Returns m' information' g' ∧
      (g = g' ↔ (Shown tags ↔ Shown tags')) := by
  have first := returns_of_laid tags wf laid
  have second := returns_of_laid tags' (fun t member => wf t (perm.mem_iff.mpr member)) laid'
  rw [outcome_of_tags] at first second
  refine ⟨_,_,first,second,?_⟩
  have mode : lastMode tags = lastMode tags' := by
    rw [lastMode,lastMode,perm_short (perm.filterMap Tag.mode) single.vbe]
  have limit := lastLimit_perm tags tags' single perm
  simp only [outcome,mode,limit,Globals.mk.injEq,and_true,true_and]
  exact lastFramebuffer_perm tags tags' single perm

theorem sampleBlock_single : Single sampleBlock := ⟨by decide,by decide,by decide⟩

/-- The same tags with the memory map first. -/
theorem mmap_first_irrelevant :
    ∃ g g', Returns (image 8 (block sampleBlock)) 0 g ∧
      Returns (image 8 (block [sampleMmap, sampleVbe, sampleFramebuffer])) 0 g' ∧ g = g' := by
  have perm : sampleBlock.Perm [sampleMmap, sampleVbe, sampleFramebuffer] :=
    @List.perm_append_comm _ [sampleVbe, sampleFramebuffer] [sampleMmap]
  obtain ⟨g,g',first,second,same⟩ := order_irrelevant_iff _ _ 0 0 sampleBlock
    [sampleMmap, sampleVbe, sampleFramebuffer] sampleBlock_wellFormed sampleBlock_single perm
    (block_laid _ 8 (image_holds 8 _)) (block_laid _ 8 (image_holds 8 _))
  refine ⟨g,g',first,second,same.mpr ?_⟩
  have shown (tags : List Tag) (pair : [sampleVbe, sampleFramebuffer].Sublist tags) : Shown tags :=
    ⟨sampleVbe,sampleFramebuffer,_,0xfd000000,pair,rfl,rfl,by decide,by decide⟩
  exact iff_of_true (shown _ (by simp [sampleBlock])) (shown _ (List.sublist_cons_self _ _))

/-- The same tags with the framebuffer first: its address is lost. -/
theorem framebuffer_first_lost :
    (∀ t ∈ sampleBlock, t.WellFormed) ∧ Single sampleBlock ∧
    sampleBlock.Perm [sampleFramebuffer, sampleVbe, sampleMmap] ∧
    ∃ g g', Returns (image 8 (block sampleBlock)) 0 g ∧
      Returns (image 8 (block [sampleFramebuffer, sampleVbe, sampleMmap])) 0 g' ∧
      g.fbmem = 0xfd000000 ∧ g'.fbmem = 0 := by
  have perm : sampleBlock.Perm [sampleFramebuffer, sampleVbe, sampleMmap] := List.Perm.swap _ _ _
  have wf : ∀ t ∈ [sampleFramebuffer, sampleVbe, sampleMmap], t.WellFormed :=
    fun t member => sampleBlock_wellFormed t (perm.mem_iff.mpr member)
  have first := returns_of_laid sampleBlock sampleBlock_wellFormed
    (block_laid _ 8 (image_holds 8 (block sampleBlock)))
  have second := returns_of_laid _ wf
    (block_laid _ 8 (image_holds 8 (block [sampleFramebuffer, sampleVbe, sampleMmap])))
  rw [outcome_of_tags] at first second
  exact ⟨sampleBlock_wellFormed,sampleBlock_single,perm,_,_,first,second,by decide,by decide⟩

end LuaKernel.Multiboot
