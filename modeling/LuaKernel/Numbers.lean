import Mathlib.Algebra.Group.Int.Defs
import Mathlib.Algebra.Group.Nat.Defs
import Mathlib.Order.Nat

/-! Integers as doubles: the one next to an integer, what a conversion to `int64` makes of it, and
the text `%.14g` makes of one that is not negative. -/
namespace LuaKernel.Numbers

/-- `n / d` to the nearest integer, a tie to the even one. -/
def nearest (n d : Nat) : Nat :=
  if 2 * (n % d) < d ∨ 2 * (n % d) = d ∧ n / d % 2 = 0 then n / d else n / d + 1

/-- The double next to `n`: 53 significant bits. -/
def toDouble (n : Nat) : Nat := nearest n (2 ^ (n.log2 - 52)) * 2 ^ (n.log2 - 52)

def double (n : Int) : Int := if 0 ≤ n then toDouble n.toNat else -toDouble (-n).toNat

/-- A conversion to `int64`; out of range the processor gives the least. -/
def toInteger (n : Int) : Int := if -2 ^ 63 ≤ n ∧ n < 2 ^ 63 then n else -2 ^ 63

def digits (n : Nat) : List UInt8 := (Nat.toDigits 10 n).map fun digit => UInt8.ofNat digit.toNat

def fraction (text : List UInt8) : List UInt8 :=
  match (text.reverse.dropWhile (· = 48)).reverse with
  | [] => []
  | kept => 46 :: kept

/-- Fourteen significant digits and an exponent. A mantissa that rounds up to 10^14 has one
digit more, which goes into the exponent. -/
def scientific (n : Nat) : List UInt8 :=
  let mantissa := digits (nearest n (10 ^ ((digits n).length - 14)))
  let exponent := (digits n).length - 1 + (mantissa.length - 14)
  mantissa.take 1 ++ fraction (mantissa.drop 1) ++ [101, 43] ++ digits exponent

def format (n : Nat) : List UInt8 := if n < 10 ^ 14 then digits n else scientific n

theorem nearest_le (n d : Nat) : nearest n d ≤ n / d + 1 := by
  unfold nearest
  split <;> omega

theorem toDouble_le (n : Nat) : toDouble n ≤ 2 * n := by
  rcases Nat.eq_zero_or_pos n with rfl | positive
  · decide
  · have unit : 2 ^ (n.log2 - 52) ≤ n :=
      (Nat.pow_le_pow_right (by decide) (Nat.sub_le _ _)).trans (Nat.log2_self_le (by omega))
    calc toDouble n ≤ (n / 2 ^ (n.log2 - 52) + 1) * 2 ^ (n.log2 - 52) :=
          Nat.mul_le_mul_right _ (nearest_le _ _)
      _ = n / 2 ^ (n.log2 - 52) * 2 ^ (n.log2 - 52) + 2 ^ (n.log2 - 52) := Nat.succ_mul _ _
      _ ≤ n + n := Nat.add_le_add (Nat.div_mul_le_self _ _) unit
      _ = 2 * n := (Nat.two_mul n).symm

theorem toDouble_small (n : Nat) (small : n < 2 ^ 53) : toDouble n = n := by
  have bits : n.log2 - 52 = 0 := by
    rcases Nat.eq_zero_or_pos n with rfl | positive
    · decide
    · have := (Nat.log2_lt (by omega)).mpr small
      omega
  simp [toDouble,bits,nearest,Nat.mod_one]

theorem toDouble_exact (n : Nat) (small : n ≤ 2 ^ 53) : toDouble n = n := by
  rcases Nat.lt_or_eq_of_le small with below | rfl
  · exact toDouble_small n below
  · decide +kernel

theorem double_exact (n : Int) (lower : -2 ^ 53 ≤ n) (upper : n ≤ 2 ^ 53) : double n = n := by
  unfold double
  split
  · rw [toDouble_exact n.toNat (by omega)]
    omega
  · rw [toDouble_exact (-n).toNat (by omega)]
    omega

theorem double_natCast (n : Nat) : double n = toDouble n := by
  rw [double,if_pos (Int.natCast_nonneg n),Int.toNat_natCast]

theorem toInteger_small (n : Int) (lower : -2 ^ 63 ≤ n) (upper : n < 2 ^ 63) : toInteger n = n :=
  if_pos ⟨lower,upper⟩

theorem toInteger_large (n : Int) (large : 2 ^ 63 ≤ n) : toInteger n = -2 ^ 63 :=
  if_neg (by omega)

theorem nearest_ge (n d : Nat) : n / d ≤ nearest n d := by
  unfold nearest
  split <;> omega

/-- Rounding keeps the power of two that a number has reached. -/
theorem le_toDouble (n k : Nat) (reached : 2 ^ k ≤ n) (large : 52 ≤ k) :
    2 ^ k ≤ toDouble n := by
  have some_ : n ≠ 0 := fun none => by
    rw [none,Nat.le_zero] at reached
    exact absurd reached (Nat.two_pow_pos k).ne'
  have log : k ≤ n.log2 := (Nat.le_log2 some_).mpr reached
  have bits : 2 ^ 52 * 2 ^ (n.log2 - 52) = 2 ^ n.log2 := by
    rw [← Nat.pow_add]
    congr 1
    omega
  have quotient : 2 ^ 52 ≤ n / 2 ^ (n.log2 - 52) := by
    rw [Nat.le_div_iff_mul_le (Nat.two_pow_pos _),bits]
    exact Nat.log2_self_le some_
  calc 2 ^ k ≤ 2 ^ n.log2 := Nat.pow_le_pow_right (by decide) log
    _ = 2 ^ 52 * 2 ^ (n.log2 - 52) := bits.symm
    _ ≤ toDouble n := Nat.mul_le_mul_right _ (quotient.trans (nearest_ge _ _))

theorem toDouble_le_pow (n k : Nat) (below : n < 2 ^ k) : toDouble n ≤ 2 ^ k := by
  rcases Nat.eq_zero_or_pos n with rfl | positive
  · exact (by decide : toDouble 0 = 0) ▸ Nat.zero_le _
  have log : n.log2 < k := (Nat.log2_lt (by omega)).mpr below
  by_cases few : n.log2 < 53
  · have small : n < 2 ^ 53 := (Nat.log2_lt (by omega)).mp few
    rw [toDouble_small n small]
    exact Nat.le_of_lt below
  have bits : 2 ^ 53 * 2 ^ (n.log2 - 52) = 2 ^ (n.log2 + 1) := by
    rw [← Nat.pow_add]
    congr 1
    omega
  have quotient : n / 2 ^ (n.log2 - 52) < 2 ^ 53 := by
    rw [Nat.div_lt_iff_lt_mul (Nat.two_pow_pos _),bits]
    exact Nat.lt_log2_self
  calc toDouble n ≤ (n / 2 ^ (n.log2 - 52) + 1) * 2 ^ (n.log2 - 52) :=
        Nat.mul_le_mul_right _ (nearest_le _ _)
    _ ≤ 2 ^ 53 * 2 ^ (n.log2 - 52) := Nat.mul_le_mul_right _ quotient
    _ = 2 ^ (n.log2 + 1) := bits
    _ ≤ 2 ^ k := Nat.pow_le_pow_right (by decide) log

/-- One more than a double below 2^63 stays below it. -/
theorem toDouble_succ_lt (n : Nat) (number : toDouble n = n) (below : n < 2 ^ 63) :
    toDouble (n + 1) < 2 ^ 63 := by
  by_cases small : n + 1 < 2 ^ 62
  · have := toDouble_le_pow (n + 1) 62 small
    omega
  by_cases first : n + 1 = 2 ^ 62
  · rw [first]
    decide +kernel
  have log : n.log2 = 62 := (Nat.log2_eq_iff (by omega)).mpr (by omega)
  have multiple : 2 ^ 10 ∣ n := by
    rw [toDouble,log] at number
    exact number ▸ Nat.dvd_mul_left _ _
  have log' : (n + 1).log2 = 62 := (Nat.log2_eq_iff (by omega)).mpr (by omega)
  have down : nearest (n + 1) (2 ^ 10) = (n + 1) / 2 ^ 10 := by
    rw [nearest,if_pos (by omega)]
  rw [toDouble,log',down]
  omega

theorem digits_length_le (n k : Nat) (positive : 0 < k) (bound : n < 10 ^ k) :
    (digits n).length ≤ k := by
  rw [digits,List.length_map]
  exact (Nat.length_toDigits_le_iff (by decide) positive).mpr bound

theorem digits_length_self (n : Nat) (positive : 0 < n) : (digits n).length ≤ n :=
  digits_length_le n n positive (Nat.lt_pow_self (by decide))

theorem fraction_length (text : List UInt8) : (fraction text).length ≤ text.length + 1 := by
  have shorter : (text.reverse.dropWhile (· = 48)).reverse.length ≤ text.length := by
    rw [List.length_reverse,← text.length_reverse]
    exact (List.dropWhile_sublist _).length_le
  unfold fraction
  split
  · simp
  · simpa using shorter

theorem digits_long (n : Nat) (large : 10 ^ 14 ≤ n) : 15 ≤ (digits n).length := by
  by_contra short
  have below : n < 10 ^ 14 := by
    rw [← Nat.length_toDigits_le_iff (by decide) (by decide)]
    simp only [digits,List.length_map] at short
    omega
  omega

/-- The mantissa keeps fourteen digits, fifteen if it rounds up. -/
theorem mantissa_length (n : Nat) (large : 10 ^ 14 ≤ n) :
    (digits (nearest n (10 ^ ((digits n).length - 14)))).length ≤ 15 := by
  apply digits_length_le _ _ (by decide)
  have long := digits_long n large
  have below : n < 10 ^ (digits n).length :=
    (Nat.length_toDigits_le_iff (by decide) (by omega)).mp (by simp [digits])
  have split : 10 ^ (digits n).length = 10 ^ 14 * 10 ^ ((digits n).length - 14) := by
    rw [← Nat.pow_add]
    congr 1
    omega
  have quotient : n / 10 ^ ((digits n).length - 14) < 10 ^ 14 :=
    Nat.div_lt_of_lt_mul (by rw [Nat.mul_comm,← split]; exact below)
  have := nearest_le n (10 ^ ((digits n).length - 14))
  omega

theorem scientific_length (n : Nat) (large : 10 ^ 14 ≤ n) :
    (scientific n).length ≤ (digits n).length + 18 := by
  have mantissa := mantissa_length n large
  simp only [scientific,List.length_append,List.length_take,List.length_cons,List.length_nil]
  have point := fraction_length ((digits (nearest n (10 ^ ((digits n).length - 14)))).drop 1)
  rw [List.length_drop] at point
  have long := digits_long n large
  have exponent := digits_length_self ((digits n).length - 1 +
    ((digits (nearest n (10 ^ ((digits n).length - 14)))).length - 14)) (by omega)
  omega

/-- From ten trillion on a number exceeds the length of any text for up to twice it. -/
theorem format_length_large (n value : Nat) (large : 10 ^ 13 ≤ n) (bound : value ≤ 2 * n) :
    (format value).length ≤ n := by
  unfold format
  split
  · rename_i small
    have := digits_length_le value 14 (by decide) small
    omega
  · rename_i long
    have text := scientific_length value (by omega)
    have room : 2 * n < 10 ^ (n - 18) := by
      have twos : n - 18 < 2 ^ (n - 18) := Nat.lt_two_pow_self
      have fives : 5 ^ 3 ≤ 5 ^ (n - 18) := Nat.pow_le_pow_right (by decide) (by omega)
      calc 2 * n < (n - 18) * 5 ^ 3 := by omega
        _ ≤ 2 ^ (n - 18) * 5 ^ (n - 18) := Nat.mul_le_mul (Nat.le_of_lt twos) fives
        _ = 10 ^ (n - 18) := by rw [← Nat.mul_pow]
    have := digits_length_le value (n - 18) (by omega) (by omega)
    omega

/-- The text of a positive number is never longer than the number. -/
theorem format_length (n : Nat) (positive : 0 < n) : (format (toDouble n)).length ≤ n := by
  by_cases small : n < 10 ^ 14
  · rw [toDouble_small n (by omega),format,if_pos small]
    exact digits_length_self n positive
  · exact format_length_large n (toDouble n) (by omega) (toDouble_le n)

end LuaKernel.Numbers
