import Mathlib.Data.Int.GCD
import LuaKernel.Framebuffer

/-! The stores of `putpixel` against the end of the buffer. Only the first of the four bytes is
compared with it, so the last offset below the end decides, and which offsets there are depends
on the depth and the length of a line: modulo 2^32 the multiples of a number that is odd or
twice an odd one are all numbers, or all even ones. -/
namespace LuaKernel.Framebuffer

open Bytes Multiboot Grid

def offset (modeinfo : List UInt8) (x y : UInt32) : Nat :=
  (y * UInt32.ofNat (bytesPerScanLine modeinfo) +
    x * UInt32.ofNat (bitsPerPixel modeinfo / 8)).toNat

/-- Nothing is stored at or beyond the end of the buffer, whatever it holds. -/
def Confined (modeinfo : List UInt8) (x y : UInt32) : Prop :=
  ∀ r g b s i, displayBufferLen modeinfo ≤ i →
    (putpixel modeinfo x y r g b s).displayBuffer i = s.displayBuffer i

def Straddles (modeinfo : List UInt8) (x y : UInt32) : Prop :=
  offset modeinfo x y < displayBufferLen modeinfo ∧
    displayBufferLen modeinfo < offset modeinfo x y + 4

theorem putpixel_stores (modeinfo : List UInt8) (x y r g b : UInt32) (s : State)
    (inside : offset modeinfo x y < displayBufferLen modeinfo) :
    (putpixel modeinfo x y r g b s).displayBuffer =
      put s.displayBuffer (offset modeinfo x y) [b.toUInt8, g.toUInt8, r.toUInt8, 0] :=
  congrArg State.displayBuffer (if_pos inside)

theorem confined_iff_straddles (modeinfo : List UInt8) (x y : UInt32) :
    Confined modeinfo x y ↔ ¬Straddles modeinfo x y := by
  constructor
  · rintro confined ⟨inside,beyond⟩
    have kept := confined 0 0 0 ⟨fun _ => 1, fun _ => 0⟩ (offset modeinfo x y + 3) (by omega)
    rw [putpixel_stores modeinfo x y 0 0 0 _ inside] at kept
    simp [put] at kept
  · intro apart r g b s i outside
    by_cases inside : offset modeinfo x y < displayBufferLen modeinfo
    · have fits : ¬displayBufferLen modeinfo < offset modeinfo x y + 4 :=
        fun beyond => apart ⟨inside,beyond⟩
      have four : [b.toUInt8, g.toUInt8, r.toUInt8, 0].length = 4 := rfl
      rw [putpixel_stores modeinfo x y r g b s inside]
      exact put_outside _ _ _ i (Or.inr (by omega))
    · have same : putpixel modeinfo x y r g b s = s := if_neg inside
      rw [same]

/-- A number with an odd factor reaches every multiple of the other factor. -/
theorem multiple_reaches (d u t : Nat) (odd : u % 2 = 1) (divides : d ∣ t) (small : t < 2 ^ 32) :
    ∃ n : UInt32, (n * UInt32.ofNat (d * u)).toNat = t := by
  have two : Nat.Coprime 2 u := by rw [Nat.Coprime,Nat.gcd_rec,odd,Nat.gcd_one_left]
  have coprime : Nat.Coprime u (2 ^ 32) := Nat.Coprime.pow_right 32 two.symm
  obtain ⟨v,-,inverse⟩ := Nat.exists_mul_mod_eq_one_of_coprime coprime (by decide)
  obtain ⟨m,rfl⟩ := divides
  refine ⟨UInt32.ofNat (v * m),?_⟩
  have rearranged : v * m * (d * u) = d * m * (u * v) := by ac_rfl
  rw [UInt32.toNat_mul,UInt32.toNat_ofNat',UInt32.toNat_ofNat',← Nat.mul_mod,rearranged,
    Nat.mul_mod,inverse,Nat.mul_one,Nat.mod_mod,Nat.mod_eq_of_lt small]

/-- Such a factor of the depth or of the line leads to any multiple of `d`. -/
theorem offset_reaches (modeinfo : List UInt8) (d t : Nat)
    (factor : (∃ u, u % 2 = 1 ∧ bitsPerPixel modeinfo / 8 = d * u) ∨
      ∃ u, u % 2 = 1 ∧ bytesPerScanLine modeinfo = d * u)
    (divides : d ∣ t) (small : t < 2 ^ 32) : ∃ x y, offset modeinfo x y = t := by
  rcases factor with ⟨u,odd,depth⟩ | ⟨u,odd,line⟩
  · obtain ⟨x,reached⟩ := multiple_reaches d u t odd divides small
    exact ⟨x,0,by rw [offset,depth,UInt32.zero_mul,UInt32.zero_add,reached]⟩
  · obtain ⟨y,reached⟩ := multiple_reaches d u t odd divides small
    exact ⟨0,y,by rw [offset,line,UInt32.zero_mul,UInt32.add_zero,reached]⟩

/-- In a mode of whole words every offset is one. -/
theorem offset_aligned (modeinfo : List UInt8) (depth : 4 ∣ bitsPerPixel modeinfo / 8)
    (line : 4 ∣ bytesPerScanLine modeinfo) (x y : UInt32) : 4 ∣ offset modeinfo x y := by
  have whole : 4 ∣ 2 ^ 32 := by decide
  have product (n : UInt32) (w : Nat) (divides : 4 ∣ w) : 4 ∣ (n * UInt32.ofNat w).toNat := by
    rw [UInt32.toNat_mul,UInt32.toNat_ofNat',Nat.dvd_mod_iff whole]
    exact Nat.dvd_mul_left_of_dvd ((Nat.dvd_mod_iff whole).mpr divides) _
  rw [offset,UInt32.toNat_add,Nat.dvd_mod_iff whole]
  exact Nat.dvd_add (product y _ line) (product x _ depth)

/-- The lines have no bytes, or words of four bytes fill them, pixel by pixel. -/
def Aligned (modeinfo : List UInt8) : Prop :=
  displayBufferLen modeinfo = 0 ∨
    (4 ∣ bitsPerPixel modeinfo / 8 ∧ 4 ∣ bytesPerScanLine modeinfo)

theorem aligned_confined (aligned : Aligned modeinfo) (x y : UInt32) :
    Confined modeinfo x y := by
  rw [confined_iff_straddles]
  rintro ⟨inside,beyond⟩
  rcases aligned with empty | ⟨depth,line⟩
  · omega
  · have pixel := offset_aligned modeinfo depth line x y
    have whole : 4 ∣ displayBufferLen modeinfo := Nat.dvd_mul_left_of_dvd line _
    omega

/-- Otherwise the offset one or two bytes before the end is one of a pixel. -/
theorem straddles_of_not_aligned (small : displayBufferLen modeinfo < 2 ^ 31)
    (crooked : ¬Aligned modeinfo) : ∃ x y, Straddles modeinfo x y := by
  obtain ⟨some_,words⟩ := not_or.mp crooked
  have reached (d : Nat) (positive : 0 < d) (short : d < 4)
      (factor : (∃ u, u % 2 = 1 ∧ bitsPerPixel modeinfo / 8 = d * u) ∨
        ∃ u, u % 2 = 1 ∧ bytesPerScanLine modeinfo = d * u)
      (divides : d ∣ bytesPerScanLine modeinfo) : ∃ x y, Straddles modeinfo x y := by
    have whole : d ∣ displayBufferLen modeinfo - d :=
      Nat.dvd_sub (Nat.dvd_mul_left_of_dvd divides _) (Nat.dvd_refl d)
    have room : d ≤ displayBufferLen modeinfo :=
      Nat.le_of_dvd (by omega) (Nat.dvd_mul_left_of_dvd divides _)
    obtain ⟨x,y,last⟩ := offset_reaches modeinfo d _ factor whole (by omega)
    exact ⟨x,y,by rw [Straddles,last]; omega⟩
  by_cases oddDepth : bitsPerPixel modeinfo / 8 % 2 = 1
  · exact reached 1 (by decide) (by decide) (Or.inl ⟨_,oddDepth,by omega⟩) (Nat.one_dvd _)
  by_cases oddLine : bytesPerScanLine modeinfo % 2 = 1
  · exact reached 1 (by decide) (by decide) (Or.inr ⟨_,oddLine,by omega⟩) (Nat.one_dvd _)
  have even : 2 ∣ bytesPerScanLine modeinfo := by omega
  by_cases depth : 4 ∣ bitsPerPixel modeinfo / 8
  · have line : ¬4 ∣ bytesPerScanLine modeinfo := fun line => words ⟨depth,line⟩
    exact reached 2 (by decide) (by decide)
      (Or.inr ⟨bytesPerScanLine modeinfo / 2,by omega,by omega⟩) even
  · exact reached 2 (by decide) (by decide)
      (Or.inl ⟨bitsPerPixel modeinfo / 8 / 2,by omega,by omega⟩) even

/-- A pixel is stored inside the buffer exactly when its four bytes do not straddle the end, and
all pixels of a mode are exactly when it is one of whole words. -/
theorem putpixel_confined_iff (modeinfo : List UInt8)
    (small : yResolution modeinfo * bytesPerScanLine modeinfo < 2 ^ 31) :
    (∀ x y, Confined modeinfo x y ↔ ¬Straddles modeinfo x y) ∧
      ((∀ x y, Confined modeinfo x y) ↔ Aligned modeinfo) := by
  refine ⟨confined_iff_straddles modeinfo,fun confined => ?_,aligned_confined⟩
  by_contra crooked
  obtain ⟨x,y,straddles⟩ := straddles_of_not_aligned small crooked
  exact (confined_iff_straddles modeinfo x y).mp (confined x y) straddles

/-- Lines of twelve bytes with four a pixel; the second offset wraps around. -/
theorem smallMode_confined : Confined smallMode 1 1 ∧ Confined smallMode 0 4000000000 := by
  have confined := (putpixel_confined_iff smallMode (by decide)).2.mpr
    (Or.inr ⟨⟨1,by decide⟩,⟨3,by decide⟩⟩)
  exact ⟨confined 1 1,confined 0 4000000000⟩

def mode24 : List UInt8 :=
  List.replicate 16 0 ++ [128, 7, 128, 2, 224, 1, 0, 0, 0, 24]

/-- The zero behind the last pixel of the screen is stored behind the buffer. -/
theorem mode24_straddles :
    yResolution mode24 * bytesPerScanLine mode24 < 2 ^ 31 ∧
      displayBufferLen mode24 = 921600 ∧ 639 < xResolution mode24 ∧ 479 < yResolution mode24 ∧
      (putpixel mode24 639 479 1 2 3 ⟨fun _ => 7, fun _ => 0⟩).displayBuffer 921600 = 0 ∧
      ¬Confined mode24 639 479 := by
  have straddles : Straddles mode24 639 479 := ⟨by decide,by decide⟩
  refine ⟨by decide,by decide,by decide,by decide,?_,?_⟩
  · rw [putpixel_stores mode24 639 479 1 2 3 _ straddles.1]
    decide
  · exact fun confined => (confined_iff_straddles mode24 639 479).mp confined straddles

end LuaKernel.Framebuffer
