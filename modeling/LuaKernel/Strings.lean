/-! `string.sub` of Lua 5.2 as `lstrlib.c` computes it. Positions count from 1, negative ones
from the end, and both bounds are inclusive. -/
namespace LuaKernel.Strings

abbrev Bytes := List UInt8

def posrelat (pos : Int) (len : Nat) : Nat :=
  if 0 ≤ pos then pos.toNat
  else if len < (-pos).toNat then 0
  else len - (-pos).toNat + 1

/-- The bytes from position `start` to `stop`, both from 1 and inside the string. -/
def slice (s : Bytes) (start stop : Nat) : Bytes :=
  if start ≤ stop then (s.drop (start - 1)).take (stop - start + 1) else []

def strSub (s : Bytes) (i j : Int) : Bytes :=
  slice s (max 1 (posrelat i s.length)) (min s.length (posrelat j s.length))

/-- The bytes of `s` at the offsets `off`, …, `off + count - 1` that exist. -/
def window (s : Bytes) (off : Int) (count : Nat) : Bytes :=
  (s.drop off.toNat).take (count - (-off).toNat)

theorem posrelat_nonneg (pos len : Nat) : posrelat pos len = pos := by simp [posrelat]

theorem slice_length (s : Bytes) (lower : 1 ≤ start) (upper : stop ≤ s.length) :
    (slice s start stop).length = stop + 1 - start := by
  unfold slice
  split
  · simp only [List.length_take,List.length_drop]
    omega
  · simp
    omega

theorem window_length (s : Bytes) (off : Int) (count : Nat) :
    (window s off count).length = min (count - (-off).toNat) (s.length - off.toNat) := by
  simp [window]

/-- From a position inside the string or past its end, `count` beyond it: one byte more than
`count`, as far as there are any. -/
theorem strSub_forward (s : Bytes) (pos count : Nat) (inside : 1 ≤ pos) :
    strSub s pos (pos + count) = window s (pos - 1) (count + 1) := by
  have cast : ((pos : Int) + count) = ((pos + count : Nat) : Int) := by omega
  have off : ((pos : Int) - 1).toNat = pos - 1 := by omega
  have none : (-((pos : Int) - 1)).toNat = 0 := by omega
  rw [strSub,cast,posrelat_nonneg,posrelat_nonneg,window,off,none,slice,Nat.max_eq_right inside]
  split
  · rw [List.take_eq_take_iff,List.length_drop]
    omega
  · have past : s.length ≤ pos - 1 := by omega
    simp [List.drop_eq_nil_of_le past]

theorem strSub_whole (s : Bytes) (stop : Nat) (enough : s.length ≤ stop) :
    strSub s 1 stop = s := by
  have first : posrelat 1 s.length = 1 := posrelat_nonneg 1 s.length
  rw [strSub,posrelat_nonneg,first,Nat.max_self,Nat.min_eq_left enough,slice]
  split
  · exact List.take_of_length_le (by simp; omega)
  · have empty : s.length = 0 := by omega
    exact (List.length_eq_zero_iff.mp empty).symm

theorem strSub_none (s : Bytes) (stop : Int) (before : stop < -s.length) :
    strSub s 1 stop = [] := by
  have first : posrelat 1 s.length = 1 := posrelat_nonneg 1 s.length
  have last : posrelat stop s.length = 0 := by
    rw [posrelat,if_neg (by omega),if_pos (by omega)]
  rw [strSub,first,last,slice,if_neg (by omega)]

theorem strSub_take (s : Bytes) (pos : Nat) : strSub s 0 pos = s.take pos := by
  have start : max 1 (posrelat 0 s.length) = 1 := rfl
  rw [strSub,posrelat_nonneg,start,slice]
  split
  · rw [Nat.sub_self,List.drop_zero,List.take_eq_take_iff]
    omega
  · have nothing : pos = 0 ∨ s = [] := by
      rw [← List.length_eq_zero_iff]
      omega
    exact (List.take_eq_nil_iff.mpr nothing).symm

theorem strSub_drop (s : Bytes) (pos : Nat) : strSub s (pos + 1) (-1) = s.drop pos := by
  have cast : ((pos : Int) + 1) = ((pos + 1 : Nat) : Int) := by omega
  have last : posrelat (-1) s.length = s.length := by
    simp only [posrelat]
    split
    · omega
    · split <;> omega
  rw [strSub,cast,posrelat_nonneg,last,slice,Nat.max_eq_right (by omega),Nat.min_self]
  split
  · rw [Nat.add_sub_cancel]
    apply List.take_of_length_le
    rw [List.length_drop]
    omega
  · exact (List.drop_eq_nil_of_le (by omega)).symm

/-- One position, negative: the byte there, or nothing when it lies before the string. -/
theorem strSub_before (s : Bytes) (pos : Int) (before : pos < 0) :
    (strSub s pos pos).length = if s.length < (-pos).toNat then 0 else 1 := by
  have relative : ¬0 ≤ pos := by omega
  simp only [strSub,posrelat,relative,↓reduceIte]
  split
  · simp [slice]
  · rw [slice_length] <;> omega

end LuaKernel.Strings
