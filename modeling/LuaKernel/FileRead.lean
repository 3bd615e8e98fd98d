import LuaKernel.Files

/-! `read` against what its callers expect of it: the bytes at the descriptor's offset, at most
`count` of them, and the descriptor moved past what was returned. The bounds of
`string.sub` are inclusive, so the code asks for one byte more, and it moves by `count`. -/
namespace LuaKernel.Files

open Strings

/-- A read of `count` bytes copies what the file holds at the descriptor's offset, which is
`pos - 1`, and moves the descriptor by the number of bytes copied. -/
def ReadMeets (fd count : Nat) (fs : FileSystem) (result : Bytes × FileSystem) : Prop :=
  ∃ d file, fs.fds[fd]? = some d ∧ fs.files d.top = some file ∧
    result.1 = window file.buf (d.pos - 1) count ∧
    (result.2.fds[fd]?.map (·.pos)) = some (d.pos + result.1.length)

def ReadsMeet (fd : Nat) (fs : FileSystem) : List Nat → Prop
  | [] => True
  | count :: rest => ∃ result, sysRead fd count fs = some result ∧
      ReadMeets fd count fs result ∧ ReadsMeet fd result.2 rest

/-- The read asks for exactly what is left of a file of `length` bytes. Before the start of
the file nothing may be asked for, and the position must not count from its end. -/
def Exact (length : Nat) (pos : Int) (count : Nat) : Prop :=
  if 1 ≤ pos then count = length - (pos - 1).toNat
  else count = 0 ∧ (pos = 0 ∨ length < (-pos).toNat)

instance Exact.decidable (length : Nat) (pos : Int) (count : Nat) :
    Decidable (Exact length pos count) := by
  unfold Exact
  infer_instance

def ReadsExact (length : Nat) (pos : Int) : List Nat → Prop
  | [] => True
  | count :: rest => Exact length pos count ∧ ReadsExact length (pos + count) rest

theorem sub_exact_inside (s : Bytes) (pos count : Nat) (inside : 1 ≤ pos) :
    (strSub s pos (pos + count) = window s (pos - 1) count ∧
      count = (strSub s pos (pos + count)).length) ↔ count = s.length - (pos - 1) := by
  rw [strSub_forward s pos count inside]
  have longer := window_length s (pos - 1) (count + 1)
  have asked := window_length s (pos - 1) count
  have off : ((pos : Int) - 1).toNat = pos - 1 := by omega
  have none : (-((pos : Int) - 1)).toNat = 0 := by omega
  rw [off,none] at longer asked
  constructor
  · rintro ⟨same,advance⟩
    have lengths := congrArg List.length same
    omega
  · intro rest
    refine ⟨?_,by omega⟩
    simp only [window,off,none,List.take_eq_take_iff,List.length_drop]
    omega

theorem sub_exact_before (s : Bytes) (pos : Int) (count : Nat) (before : pos ≤ 0) :
    (strSub s pos (pos + count) = window s (pos - 1) count ∧
      count = (strSub s pos (pos + count)).length) ↔
        count = 0 ∧ (pos = 0 ∨ s.length < (-pos).toNat) := by
  have asked := window_length s (pos - 1) count
  constructor
  · rintro ⟨same,advance⟩
    have lengths := congrArg List.length same
    have nothing : count = 0 := by omega
    subst nothing
    refine ⟨rfl,?_⟩
    rcases Int.lt_or_eq_of_le before with negative | zero
    · right
      have single := strSub_before s pos negative
      simp only [Int.natCast_zero,Int.add_zero] at advance
      rw [← advance] at single
      by_contra inside
      rw [if_neg inside] at single
      contradiction
    · exact Or.inl zero
  · rintro ⟨rfl,outside⟩
    have empty : strSub s pos (pos + (0 : Nat)) = [] := by
      apply List.eq_nil_of_length_eq_zero
      rw [Int.natCast_zero,Int.add_zero]
      rcases outside with rfl | past
      · simp [strSub,posrelat,slice]
      · rw [strSub_before s pos (by omega),if_pos past]
    rw [empty]
    simp [window]

theorem read_exact_iff (s : Bytes) (pos : Int) (count : Nat) :
    (strSub s pos (pos + count) = window s (pos - 1) count ∧
      count = (strSub s pos (pos + count)).length) ↔ Exact s.length pos count := by
  unfold Exact
  split
  · rename_i inside
    obtain ⟨p,rfl⟩ := Int.eq_ofNat_of_zero_le (show 0 ≤ pos by omega)
    have off : ((p : Int) - 1).toNat = p - 1 := by omega
    rw [off]
    exact sub_exact_inside s p count (by omega)
  · exact sub_exact_before s pos count (by omega)

theorem readMeets_iff (regular : Regular fs fd d file) (count : Nat) :
    ReadMeets fd count fs (strSub file.buf d.pos (d.pos + count),
      seek fd (d.pos + count) (print (strSub file.buf d.pos (d.pos + count)) fs)) ↔
        Exact file.buf.length d.pos count := by
  have after := (regular.moved (d.pos + count) (strSub file.buf d.pos (d.pos + count))).opened
  rw [← read_exact_iff]
  simp only [ReadMeets,after,Option.map_some,Option.some.injEq,regular.opened]
  constructor
  · rintro ⟨_,other,rfl,record,bytes,advance⟩
    rw [regular.record] at record
    obtain rfl := Option.some.inj record
    exact ⟨bytes,by omega⟩
  · rintro ⟨bytes,advance⟩
    exact ⟨d,file,rfl,regular.record,bytes,by omega⟩

/-- Every read of a sequence through one descriptor meets what is expected of it exactly when
each asks for what is left of the file. -/
theorem reads_meet_iff (regular : Regular fs fd d file) (counts : List Nat) :
    ReadsMeet fd fs counts ↔ ReadsExact file.buf.length d.pos counts := by
  induction counts generalizing fs d with
  | nil => exact Iff.rfl
  | cons count rest ih =>
    have later := ih (regular.moved (d.pos + count) (strSub file.buf d.pos (d.pos + count)))
    simp only [ReadsMeet,ReadsExact,sysRead_regular regular count,Option.some.injEq]
    rw [← later,← readMeets_iff regular count]
    constructor
    · rintro ⟨_,rfl,meets,more⟩
      exact ⟨meets,more⟩
    · rintro ⟨meets,more⟩
      exact ⟨_,rfl,meets,more⟩

def hello : FileSystem where
  files _ := some ⟨[104, 101, 108, 108, 111], false⟩
  fds := [⟨"/hello", 1⟩]
  stdout := []

theorem hello_regular : Regular hello 0 ⟨"/hello", 1⟩ ⟨[104, 101, 108, 108, 111], false⟩ :=
  ⟨rfl,rfl,rfl⟩

/-- Reading all of it and then nothing. -/
theorem hello_read_whole : ReadsMeet 0 hello [5, 0] :=
  (reads_meet_iff hello_regular [5, 0]).mpr ⟨by decide,by decide,trivial⟩

/-- Two bytes are asked for and three copied. -/
theorem hello_read_two : ∃ result, sysRead 0 2 hello = some result ∧
    result.1 = [104, 101, 108] ∧ ¬ReadsMeet 0 hello [2] := by
  refine ⟨_,sysRead_regular hello_regular 2,by decide,?_⟩
  rintro ⟨result,ran,meets,-⟩
  rw [sysRead_regular hello_regular 2] at ran
  obtain rfl := Option.some.inj ran
  exact absurd ((readMeets_iff hello_regular 2).mp meets) (by decide)

end LuaKernel.Files
