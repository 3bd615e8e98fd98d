import Mathlib.Algebra.Group.Nat.Defs
import LuaKernel.Loops

/-! The identity map of `init.c`: `struct PML4` laid out by the C alignment rules, the
four nested loops of `setup_page_table` with their one running page counter, and the
IA-32e walk of the result. Physical memory is read by quadwords, the only unit the
loops and the paging hardware use. -/
namespace LuaKernel.PageTable

open Loops

abbrev Memory := Nat → BitVec 64

def store (m : Memory) (address : Nat) (value : BitVec 64) : Memory :=
  fun a => if a = address then value else m a

@[simp] theorem store_same : store m address value address = value := by simp [store]
@[simp] theorem store_other (h : a ≠ address) : store m address value a = m a := by
  simp [store,h]

def numPML4 : Nat := 1
def numPDP : Nat := 1
def numPD : Nat := 4
def numPT : Nat := 512

/-- Every struct of the nest has alignment 4096, so the member after a `ptr` array
and the end of each struct are rounded up to it. -/
def align (offset : Nat) : Nat := (offset + 4095) / 4096 * 4096

def sizeofPT : Nat := align (8 * 512)
def offsetPT : Nat := align (8 * numPT)
def sizeofPD : Nat := align (offsetPT + numPT * sizeofPT)
def offsetPD : Nat := align (8 * numPD)
def sizeofPDP : Nat := align (offsetPD + numPD * sizeofPD)
def offsetPDP : Nat := align (8 * numPDP)
def sizeofPML4 : Nat := align (offsetPDP + numPDP * sizeofPDP)

@[simp] theorem sizeofPT_eq : sizeofPT = 4096 := by decide
@[simp] theorem offsetPT_eq : offsetPT = 4096 := by decide
@[simp] theorem sizeofPD_eq : sizeofPD = 2101248 := by decide
@[simp] theorem offsetPD_eq : offsetPD = 4096 := by decide
@[simp] theorem offsetPDP_eq : offsetPDP = 4096 := by decide
@[simp] theorem sizeofPML4_eq : sizeofPML4 = 8413184 := by decide

/-- What the loops change: the tables and the running counter `u32 addr`. -/
structure State where
  memory : Memory
  addr : BitVec 32

/-- `(u32)pointer | 3`, widened by the assignment to a `u64` slot. -/
def entry (pointer : Nat) : BitVec 64 := (BitVec.ofNat 32 pointer ||| 3).setWidth 64

/-- `(addr * 4096) | 3` in 32-bit arithmetic. -/
def leaf (addr : BitVec 32) : BitVec 64 := (addr * 4096 ||| 3).setWidth 64

def writeLeaf (pt i : Nat) (s : State) : State :=
  ⟨store s.memory (pt + 8 * i) (leaf s.addr), s.addr + 1⟩

def fillPT (pt : Nat) : State → State := loop 512 (writeLeaf pt)

def linkPT (pd nPT : Nat) (s : State) : State :=
  let pt := pd + offsetPT + nPT * sizeofPT
  fillPT pt ⟨store s.memory (pd + 8 * nPT) (entry pt), s.addr⟩

def fillPD (pd : Nat) : State → State := loop numPT (linkPT pd)

def linkPD (pdp nPD : Nat) (s : State) : State :=
  let pd := pdp + offsetPD + nPD * sizeofPD
  fillPD pd ⟨store s.memory (pdp + 8 * nPD) (entry pd), s.addr⟩

def fillPDP (pdp : Nat) : State → State := loop numPD (linkPD pdp)

def linkPDP (pml4 nPDP : Nat) (s : State) : State :=
  let pdp := pml4 + offsetPDP + nPDP * sizeofPDP
  fillPDP pdp ⟨store s.memory (pml4 + 8 * nPDP) (entry pdp), s.addr⟩

def fillPML4 (pml4 : Nat) : State → State := loop numPDP (linkPDP pml4)

structure Paging where
  memory : Memory
  cr3 : Nat

def setupPageTable (PML4 : Nat) (memory : Memory) : Paging :=
  let s := loop numPML4 (fun nPML4 => fillPML4 (PML4 + nPML4 * sizeofPML4)) ⟨memory, 0⟩
  ⟨s.memory, PML4⟩

theorem loop_addr (body : Nat → State → State) (pages : Nat)
    (advance : ∀ i s, (body i s).addr = s.addr + BitVec.ofNat 32 pages) (n : Nat) (s : State) :
    (loop n body s).addr = s.addr + BitVec.ofNat 32 (n * pages) := by
  refine loop_invariant (fun i t => t.addr = s.addr + BitVec.ofNat 32 (i * pages)) n body s
    (by simp) ?_
  intro i t _ same
  rw [advance,same,BitVec.add_assoc,← BitVec.ofNat_add,Nat.succ_mul]

theorem fillPT_addr (pt : Nat) (s : State) :
    (fillPT pt s).addr = s.addr + BitVec.ofNat 32 512 :=
  loop_addr (writeLeaf pt) 1 (fun _ _ => rfl) 512 s

theorem fillPD_addr (pd : Nat) (s : State) :
    (fillPD pd s).addr = s.addr + BitVec.ofNat 32 (numPT * 512) :=
  loop_addr (linkPT pd) 512 (fun _ _ => fillPT_addr _ _) numPT s

theorem fillPT_frame (pt : Nat) (s : State) (a : Nat) (outside : a < pt ∨ pt + 4096 ≤ a) :
    (fillPT pt s).memory a = s.memory a := by
  refine loop_frame State.memory (writeLeaf pt) 512 s a fun i t bound => ?_
  exact store_other (by omega)

theorem linkPT_frame (pd nPT : Nat) (s : State) (a : Nat) (slot : a ≠ pd + 8 * nPT)
    (outside : a < pd + 4096 + nPT * 4096 ∨ pd + 4096 + nPT * 4096 + 4096 ≤ a) :
    (linkPT pd nPT s).memory a = s.memory a := by
  simp only [linkPT,offsetPT_eq,sizeofPT_eq]
  rw [fillPT_frame _ _ _ outside]
  exact store_other slot

theorem fillPD_frame (pd : Nat) (s : State) (a : Nat)
    (outside : a < pd ∨ pd + 2101248 ≤ a) :
    (fillPD pd s).memory a = s.memory a := by
  refine loop_frame State.memory (linkPT pd) numPT s a fun i t bound => ?_
  simp only [numPT] at bound
  exact linkPT_frame pd i t a (by omega) (by omega)

theorem linkPD_frame (pdp nPD : Nat) (s : State) (a : Nat) (slot : a ≠ pdp + 8 * nPD)
    (outside : a < pdp + 4096 + nPD * 2101248 ∨ pdp + 4096 + nPD * 2101248 + 2101248 ≤ a) :
    (linkPD pdp nPD s).memory a = s.memory a := by
  simp only [linkPD,offsetPD_eq,sizeofPD_eq]
  rw [fillPD_frame _ _ _ outside]
  exact store_other slot

/-- Unlike a page directory, the pointer table has padding that stays untouched. -/
theorem fillPDP_frame (pdp : Nat) (s : State) (a : Nat)
    (outside : a < pdp ∨ (pdp + 32 ≤ a ∧ a < pdp + 4096) ∨ pdp + 8409088 ≤ a) :
    (fillPDP pdp s).memory a = s.memory a := by
  refine loop_frame State.memory (linkPD pdp) numPD s a fun i t bound => ?_
  simp only [numPD] at bound
  exact linkPD_frame pdp i t a (by omega) (by omega)

theorem fillPT_leaf (pt : Nat) (s : State) (i : Nat) (bound : i < 512) :
    (fillPT pt s).memory (pt + 8 * i) = leaf (s.addr + BitVec.ofNat 32 i) := by
  have own := loop_region State.memory (fun i a => a = pt + 8 * i) (writeLeaf pt) 512 s
    (fun i t a _ outside => store_other outside) (by omega) i bound (pt + 8 * i) rfl
  have counter := loop_addr (writeLeaf pt) 1 (fun _ _ => rfl) i s
  rw [fillPT,own]
  simp only [writeLeaf,store_same,counter,Nat.mul_one]

/-- Iteration `nPT` owns its pointer slot and its page table. -/
def regionPT (pd nPT a : Nat) : Prop :=
  a = pd + 8 * nPT ∨ (pd + 4096 + nPT * 4096 ≤ a ∧ a < pd + 4096 + nPT * 4096 + 4096)

theorem fillPD_own (pd : Nat) (s : State) (nPT : Nat) (bound : nPT < 512) (a : Nat)
    (inside : regionPT pd nPT a) :
    (fillPD pd s).memory a = (linkPT pd nPT (loop nPT (linkPT pd) s)).memory a := by
  refine loop_region State.memory (regionPT pd) (linkPT pd) numPT s ?_ ?_ nPT bound a inside
  · intro i t a _ outside
    simp only [regionPT,not_or,not_and] at outside
    exact linkPT_frame pd i t a outside.1 (by omega)
  · intro i j a hi hj first second
    simp only [numPT] at hi hj
    simp only [regionPT] at first second
    omega

theorem fillPD_ptr (pd : Nat) (s : State) (nPT : Nat) (bound : nPT < 512) :
    (fillPD pd s).memory (pd + 8 * nPT) = entry (pd + 4096 + nPT * 4096) := by
  rw [fillPD_own pd s nPT bound _ (Or.inl rfl)]
  simp only [linkPT,offsetPT_eq,sizeofPT_eq]
  rw [fillPT_frame _ _ _ (by omega)]
  exact store_same

theorem fillPD_leaf (pd : Nat) (s : State) (nPT i : Nat) (bound : nPT < 512) (hi : i < 512) :
    (fillPD pd s).memory (pd + 4096 + nPT * 4096 + 8 * i) =
      leaf (s.addr + BitVec.ofNat 32 (nPT * 512 + i)) := by
  have counter := loop_addr (linkPT pd) 512 (fun _ _ => fillPT_addr _ _) nPT s
  rw [fillPD_own pd s nPT bound _ (Or.inr ⟨by omega,by omega⟩)]
  simp only [linkPT,offsetPT_eq,sizeofPT_eq]
  rw [fillPT_leaf _ _ i hi,counter,BitVec.ofNat_add,BitVec.add_assoc]

def regionPD (pdp nPD a : Nat) : Prop :=
  a = pdp + 8 * nPD ∨
    (pdp + 4096 + nPD * 2101248 ≤ a ∧ a < pdp + 4096 + nPD * 2101248 + 2101248)

theorem fillPDP_own (pdp : Nat) (s : State) (nPD : Nat) (bound : nPD < 4) (a : Nat)
    (inside : regionPD pdp nPD a) :
    (fillPDP pdp s).memory a = (linkPD pdp nPD (loop nPD (linkPD pdp) s)).memory a := by
  refine loop_region State.memory (regionPD pdp) (linkPD pdp) numPD s ?_ ?_ nPD bound a inside
  · intro i t a _ outside
    simp only [regionPD,not_or,not_and] at outside
    exact linkPD_frame pdp i t a outside.1 (by omega)
  · intro i j a hi hj first second
    simp only [numPD] at hi hj
    simp only [regionPD] at first second
    omega

theorem fillPDP_ptr (pdp : Nat) (s : State) (nPD : Nat) (bound : nPD < 4) :
    (fillPDP pdp s).memory (pdp + 8 * nPD) = entry (pdp + 4096 + nPD * 2101248) := by
  rw [fillPDP_own pdp s nPD bound _ (Or.inl rfl)]
  simp only [linkPD,offsetPD_eq,sizeofPD_eq]
  rw [fillPD_frame _ _ _ (by omega)]
  exact store_same

theorem fillPDP_directory (pdp : Nat) (s : State) (nPD nPT : Nat) (bound : nPD < 4)
    (hPT : nPT < 512) :
    (fillPDP pdp s).memory (pdp + 4096 + nPD * 2101248 + 8 * nPT) =
      entry (pdp + 4096 + nPD * 2101248 + 4096 + nPT * 4096) := by
  rw [fillPDP_own pdp s nPD bound _ (Or.inr ⟨by omega,by omega⟩)]
  simp only [linkPD,offsetPD_eq,sizeofPD_eq]
  rw [fillPD_ptr _ _ nPT hPT]

theorem fillPDP_leaf (pdp : Nat) (s : State) (nPD nPT i : Nat) (bound : nPD < 4)
    (hPT : nPT < 512) (hi : i < 512) :
    (fillPDP pdp s).memory (pdp + 4096 + nPD * 2101248 + 4096 + nPT * 4096 + 8 * i) =
      leaf (s.addr + BitVec.ofNat 32 (nPD * (numPT * 512) + (nPT * 512 + i))) := by
  have counter := loop_addr (linkPD pdp) (numPT * 512) (fun _ _ => fillPD_addr _ _) nPD s
  rw [fillPDP_own pdp s nPD bound _ (Or.inr ⟨by omega,by omega⟩)]
  simp only [linkPD,offsetPD_eq,sizeofPD_eq]
  rw [fillPD_leaf _ _ nPT i hPT hi,counter,BitVec.ofNat_add (nPD * (numPT * 512)),BitVec.add_assoc]

def present (e : BitVec 64) : Bool := e.getLsbD 0
def writable (e : BitVec 64) : Bool := e.getLsbD 1
def pageSize (e : BitVec 64) : Bool := e.getLsbD 7

/-- Bits 51 to 12 of an entry, as the byte address of the next table or of the page. -/
def frame (e : BitVec 64) : Nat := (e.extractLsb 51 12).toNat * 4096

/-- The nine index bits of the linear address that start at bit `low`. -/
def index (v : BitVec 48) (low : Nat) : Nat := (v.extractLsb' low 9).toNat

def offset (v : BitVec 48) : Nat := (v.extractLsb' 0 12).toNat

inductive Walk where
  | notPresent
  /-- A page-size bit ended the walk above the page table. -/
  | large
  | mapped (physical : Nat) (entries : List (BitVec 64))

def walk (p : Paging) (v : BitVec 48) : Walk :=
  let pml4e := p.memory (p.cr3 + 8 * index v 39)
  if !present pml4e then .notPresent else
  let pdpte := p.memory (frame pml4e + 8 * index v 30)
  if !present pdpte then .notPresent else
  if pageSize pdpte then .large else
  let pde := p.memory (frame pdpte + 8 * index v 21)
  if !present pde then .notPresent else
  if pageSize pde then .large else
  let pte := p.memory (frame pde + 8 * index v 12)
  if !present pte then .notPresent else
  .mapped (frame pte + offset v) [pml4e,pdpte,pde,pte]

theorem index_eq (v : BitVec 48) (low : Nat) : index v low = v.toNat / 2 ^ low % 512 := by
  simp [index,BitVec.extractLsb'_toNat,Nat.shiftRight_eq_div_pow]

theorem offset_eq (v : BitVec 48) : offset v = v.toNat % 4096 := by
  simp [offset,BitVec.extractLsb'_toNat]

structure Points (e : BitVec 64) (pointer : Nat) : Prop where
  present : present e = true
  writable : writable e = true
  small : pageSize e = false
  frame : frame e = pointer

theorem points_of_toNat (e : BitVec 64) (page : Nat) (bound : page < 2 ^ 20)
    (value : e.toNat = 4096 * page + 3) : Points e (4096 * page) := by
  constructor
  · simp only [PageTable.present,← BitVec.testBit_toNat,value,Nat.testBit_eq_decide_div_mod_eq]
    simp; omega
  · simp only [PageTable.writable,← BitVec.testBit_toNat,value,Nat.testBit_eq_decide_div_mod_eq]
    simp; omega
  · simp only [pageSize,← BitVec.testBit_toNat,value,Nat.testBit_eq_decide_div_mod_eq]
    simp; omega
  · simp only [PageTable.frame,BitVec.extractLsb,BitVec.extractLsb'_toNat,value,
      Nat.shiftRight_eq_div_pow]
    omega

/-- Or-ing the flag bits into an aligned word adds them. -/
theorem or_flags (x : BitVec 32) (page : Nat) (value : x.toNat = 4096 * page) :
    ((x ||| 3).setWidth 64).toNat = 4096 * page + 3 := by
  have sum := Nat.two_pow_add_eq_or_of_lt (i := 12) (b := 3) (by decide) page
  have small := x.isLt
  have flags : (3 : BitVec 32).toNat = 3 := rfl
  simp only [BitVec.toNat_setWidth,BitVec.toNat_or,value,flags,← sum]
  omega

theorem entry_points (pointer : Nat) (aligned : pointer % 4096 = 0) (bound : pointer < 2 ^ 32) :
    Points (entry pointer) pointer := by
  have split : pointer = 4096 * (pointer / 4096) := by omega
  rw [split]
  refine points_of_toNat _ _ (by omega) (or_flags _ _ ?_)
  simp only [BitVec.toNat_ofNat]
  omega

/-- `addr * 4096` does not wrap for any page below 4 GiB. -/
theorem leaf_points (page : Nat) (bound : page < 2 ^ 20) :
    Points (leaf (BitVec.ofNat 32 page)) (4096 * page) := by
  refine points_of_toNat _ _ bound (or_flags _ _ ?_)
  have size : (4096 : BitVec 32).toNat = 4096 := rfl
  simp only [BitVec.toNat_mul,BitVec.toNat_ofNat,size]
  omega

/-- A walk that meets four tables of small pages. -/
theorem walk_mapped (p : Paging) (v : BitVec 48) (pdp pd pt : Nat)
    (top : Points (p.memory (p.cr3 + 8 * index v 39)) pdp)
    (upper : Points (p.memory (pdp + 8 * index v 30)) pd)
    (lower : Points (p.memory (pd + 8 * index v 21)) pt)
    (page : Points (p.memory (pt + 8 * index v 12)) target) :
    ∃ pml4e pdpte pde pte,
      walk p v = .mapped (target + offset v) [pml4e,pdpte,pde,pte] ∧
      ∀ e ∈ [pml4e,pdpte,pde,pte], present e = true ∧ writable e = true := by
  refine ⟨p.memory (p.cr3 + 8 * index v 39),p.memory (pdp + 8 * index v 30),
    p.memory (pd + 8 * index v 21),p.memory (pt + 8 * index v 12),?_,?_⟩
  · simp only [walk,top.present,top.frame,upper.present,upper.small,upper.frame,lower.present,
      lower.small,lower.frame,page.present,page.frame,Bool.not_true,Bool.false_eq_true,↓reduceIte]
  · simp only [List.mem_cons,List.not_mem_nil,or_false]
    rintro e (rfl | rfl | rfl | rfl)
    · exact ⟨top.present,top.writable⟩
    · exact ⟨upper.present,upper.writable⟩
    · exact ⟨lower.present,lower.writable⟩
    · exact ⟨page.present,page.writable⟩

theorem walk_absent_top (p : Paging) (v : BitVec 48) (top : p.memory (p.cr3 + 8 * index v 39) = 0) :
    walk p v = .notPresent := by
  have absent : present 0 = false := by decide
  simp only [walk,top,absent,Bool.not_false,↓reduceIte]

theorem walk_absent_upper (p : Paging) (v : BitVec 48) (pdp : Nat)
    (top : Points (p.memory (p.cr3 + 8 * index v 39)) pdp)
    (upper : p.memory (pdp + 8 * index v 30) = 0) : walk p v = .notPresent := by
  have absent : present 0 = false := by decide
  simp only [walk,top.present,top.frame,upper,absent,Bool.not_true,Bool.not_false,
    Bool.false_eq_true,↓reduceIte]

/-- Where the linker may put `PML4`: page-aligned and wholly below 4 GiB. -/
structure Placement where
  base : Nat
  aligned : base % 4096 = 0
  fits : base + sizeofPML4 ≤ 2 ^ 32

theorem setup_memory (base : Nat) (memory : Memory) :
    (setupPageTable base memory).memory =
      (fillPDP (base + 4096) ⟨store memory base (entry (base + 4096)), 0⟩).memory := by
  simp only [setupPageTable,fillPML4,numPML4,numPDP,loop_one,linkPDP,offsetPDP_eq,
    Nat.zero_mul,Nat.mul_zero,Nat.add_zero]

section Tables

variable (placed : Placement) (memory : Memory)

theorem setup_pml4 :
    (setupPageTable placed.base memory).memory placed.base = entry (placed.base + 4096) := by
  rw [setup_memory,fillPDP_frame _ _ _ (by omega)]
  exact store_same

/-- Behind the one entry of the first table and the four of the second. -/
theorem setup_padding
    (zero : ∀ a, placed.base ≤ a → a < placed.base + sizeofPML4 → memory a = 0) (a : Nat)
    (behind : placed.base < a ∧ a < placed.base + 4096 ∨
      placed.base + 4128 ≤ a ∧ a < placed.base + 8192) :
    (setupPageTable placed.base memory).memory a = 0 := by
  rw [setup_memory,fillPDP_frame _ _ _ (by omega)]
  simp only [sizeofPML4_eq] at zero
  exact (store_other (by omega)).trans (zero _ (by omega) (by omega))

theorem setup_pdp (n : Nat) (bound : n < 4) :
    (setupPageTable placed.base memory).memory (placed.base + 4096 + 8 * n) =
      entry (placed.base + 8192 + n * 2101248) := by
  rw [setup_memory,fillPDP_ptr _ _ n bound]

theorem setup_pd (n k : Nat) (bound : n < 4) (hk : k < 512) :
    (setupPageTable placed.base memory).memory (placed.base + 8192 + n * 2101248 + 8 * k) =
      entry (placed.base + 12288 + n * 2101248 + k * 4096) := by
  have directory : placed.base + 8192 = placed.base + 4096 + 4096 := by omega
  rw [setup_memory,directory,fillPDP_directory _ _ n k bound hk]
  congr 1
  omega

theorem setup_pt (n k i : Nat) (bound : n < 4) (hk : k < 512) (hi : i < 512) :
    (setupPageTable placed.base memory).memory
        (placed.base + 12288 + n * 2101248 + k * 4096 + 8 * i) =
      leaf (BitVec.ofNat 32 (n * 262144 + k * 512 + i)) := by
  have own := fillPDP_leaf (placed.base + 4096)
    ⟨store memory placed.base (entry (placed.base + 4096)), 0⟩ n k i bound hk hi
  have slot : placed.base + 12288 + n * 2101248 + k * 4096 + 8 * i =
      placed.base + 4096 + 4096 + n * 2101248 + 4096 + k * 4096 + 8 * i := by omega
  have first : (0 : BitVec 32) = 0#32 := rfl
  rw [setup_memory,slot,own,first,BitVec.zero_add,Nat.add_assoc]
  rfl

theorem setup_top :
    Points ((setupPageTable placed.base memory).memory placed.base) (placed.base + 4096) := by
  have fits := placed.fits
  have aligned := placed.aligned
  simp only [sizeofPML4_eq] at fits
  rw [setup_pml4]
  exact entry_points _ (by omega) (by omega)

/-- Below 4 GiB bits 31 to 12 of an address name its page, and the lower levels split them. -/
theorem walk_low (v : BitVec 48) (low : v.toNat < 2 ^ 32) : ∃ pml4e pdpte pde pte,
    walk (setupPageTable placed.base memory) v = .mapped v.toNat [pml4e,pdpte,pde,pte] ∧
    ∀ e ∈ [pml4e,pdpte,pde,pte], present e = true ∧ writable e = true := by
  have fits := placed.fits
  have aligned := placed.aligned
  simp only [sizeofPML4_eq] at fits
  obtain ⟨n,k,i,hn,hk,hi,page⟩ : ∃ n k i, n < 4 ∧ k < 512 ∧ i < 512 ∧
      v.toNat / 4096 = n * 262144 + k * 512 + i :=
    ⟨v.toNat / 2 ^ 30,v.toNat / 2 ^ 21 % 512,v.toNat / 2 ^ 12 % 512,by omega,by omega,by omega,
      by omega⟩
  have i4 : index v 39 = 0 := by rw [index_eq]; omega
  have i3 : index v 30 = n := by rw [index_eq]; omega
  have i2 : index v 21 = k := by rw [index_eq]; omega
  have i1 : index v 12 = i := by rw [index_eq]; omega
  have target : 4096 * (n * 262144 + k * 512 + i) + offset v = v.toNat := by
    rw [offset_eq]; omega
  rw [← target]
  refine walk_mapped _ v (placed.base + 4096) (placed.base + 8192 + n * 2101248)
    (placed.base + 12288 + n * 2101248 + k * 4096) ?_ ?_ ?_ ?_
  · rw [i4]
    exact setup_top placed memory
  · rw [i3,setup_pdp placed memory n hn]
    exact entry_points _ (by omega) (by omega)
  · rw [i2,setup_pd placed memory n k hn hk]
    exact entry_points _ (by omega) (by omega)
  · rw [i1,setup_pt placed memory n k i hn hk hi]
    exact leaf_points _ (by omega)

/-- Above it one of the upper two levels has no entry. -/
theorem walk_high (zero : ∀ a, placed.base ≤ a → a < placed.base + sizeofPML4 → memory a = 0)
    (v : BitVec 48) (high : 2 ^ 32 ≤ v.toNat) :
    walk (setupPageTable placed.base memory) v = .notPresent := by
  have wide := v.isLt
  by_cases first : index v 39 = 0
  · have beyond : 4 ≤ index v 30 := by rw [index_eq] at first ⊢; omega
    have bound : index v 30 < 512 := by rw [index_eq]; omega
    refine walk_absent_upper _ v (placed.base + 4096) ?_
      (setup_padding placed memory zero (placed.base + 4096 + 8 * index v 30) (by omega))
    rw [first]
    exact setup_top placed memory
  · have bound : index v 39 < 512 := by rw [index_eq]; omega
    exact walk_absent_top _ v
      (setup_padding placed memory zero (placed.base + 8 * index v 39) (by omega))

end Tables

/-- The tables map every address below 4 GiB to itself, present and writable at all
four levels, and nothing above it. -/
theorem setup_page_table_identity (placed : Placement) (memory : Memory)
    (zero : ∀ a, placed.base ≤ a → a < placed.base + sizeofPML4 → memory a = 0) (v : BitVec 48) :
    (v.toNat < 2 ^ 32 → ∃ pml4e pdpte pde pte,
      walk (setupPageTable placed.base memory) v = .mapped v.toNat [pml4e,pdpte,pde,pte] ∧
      ∀ e ∈ [pml4e,pdpte,pde,pte], present e = true ∧ writable e = true) ∧
    (2 ^ 32 ≤ v.toNat → walk (setupPageTable placed.base memory) v = .notPresent) :=
  ⟨walk_low placed memory v,walk_high placed memory zero v⟩

/-- With the tables at 2 MiB: the text-mode screen maps to itself, 4 GiB does not. -/
theorem identity_at_two_mebibytes :
    (∃ pml4e pdpte pde pte,
      walk (setupPageTable 0x200000 fun _ => 0) 0xb8000 = .mapped 0xb8000 [pml4e,pdpte,pde,pte] ∧
      ∀ e ∈ [pml4e,pdpte,pde,pte], present e = true ∧ writable e = true) ∧
    walk (setupPageTable 0x200000 fun _ => 0) 0x100000000 = .notPresent :=
  let placed : Placement := ⟨0x200000, by decide, by decide⟩
  ⟨(setup_page_table_identity placed (fun _ => 0) (fun _ _ _ => rfl) 0xb8000).1 (by decide),
    (setup_page_table_identity placed (fun _ => 0) (fun _ _ _ => rfl) 0x100000000).2 (by decide)⟩

end LuaKernel.PageTable
