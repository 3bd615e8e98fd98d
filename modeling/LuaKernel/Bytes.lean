import Mathlib.Algebra.Group.Int.Defs
import Mathlib.Algebra.Group.Nat.Defs

/-! Byte-addressed memory, little-endian loads, and fixed-width two's complement
readings of natural numbers. `Holds` ties a region of memory to a list of bytes, so
that a decoder over memory can be run against an encoder over lists. -/
namespace LuaKernel.Bytes

abbrev Memory := Nat → UInt8

def load (m : Memory) (address : Nat) : Nat → Nat
  | 0 => 0
  | width + 1 => (m address).toNat + 256 * load m (address + 1) width

def encode (value : Nat) : Nat → List UInt8
  | 0 => []
  | width + 1 => UInt8.ofNat value :: encode (value / 256) width

def copy (m : Memory) (address : Nat) : Nat → List UInt8
  | 0 => []
  | width + 1 => m address :: copy m (address + 1) width

def Holds (m : Memory) (address : Nat) (bytes : List UInt8) : Prop :=
  ∀ i (bound : i < bytes.length), m (address + i) = bytes[i]

def int32 (value : Nat) : Int :=
  if value % 2 ^ 32 < 2 ^ 31 then (value % 2 ^ 32 : Nat) else (value % 2 ^ 32 : Nat) - 2 ^ 32

@[simp] theorem encode_length (value width : Nat) : (encode value width).length = width := by
  induction width generalizing value with
  | zero => rfl
  | succ width ih => simp [encode,ih]

theorem copy_take (m : Memory) (address width count : Nat) :
    (copy m address width).take count = copy m address (min count width) := by
  induction width generalizing address count with
  | zero => simp [copy]
  | succ width ih =>
    cases count with
    | zero => simp [copy]
    | succ count => rw [copy,List.take_succ_cons,ih,Nat.add_min_add_right,copy]

theorem holds_nil (m : Memory) (address : Nat) : Holds m address [] := by
  intro i bound
  simp at bound

theorem holds_cons : Holds m address (byte :: rest) ↔
    m address = byte ∧ Holds m (address + 1) rest := by
  constructor
  · intro h
    refine ⟨h 0 (by simp), fun i bound => ?_⟩
    have shifted := h (i + 1) (by simpa using bound)
    simpa [Nat.add_assoc,Nat.add_comm 1] using shifted
  · rintro ⟨first,rest⟩ i bound
    cases i with
    | zero => simpa using first
    | succ i =>
      have shifted := rest i (by simpa using bound)
      simpa [Nat.add_assoc,Nat.add_comm 1] using shifted

theorem holds_append : Holds m address (first ++ second) ↔
    Holds m address first ∧ Holds m (address + first.length) second := by
  induction first generalizing address with
  | nil => simp [holds_nil]
  | cons byte rest ih =>
    rw [List.cons_append,holds_cons,holds_cons,ih,and_assoc,List.length_cons,
      show address + (rest.length + 1) = address + 1 + rest.length by omega]

/-- Blocks of one width: each is where its number says. -/
theorem holds_blocks {block : Nat → List UInt8} (width : ∀ i, (block i).length = w)
    (h : Holds m address ((List.range' k count).flatMap block)) (from_ : k ≤ n)
    (below : n < k + count) : Holds m (address + w * (n - k)) (block n) := by
  induction count generalizing k address with
  | zero => omega
  | succ count ih =>
    rw [List.range'_succ,List.flatMap_cons,holds_append,width] at h
    by_cases here : k = n
    · subst here
      rw [Nat.sub_self]
      exact h.1
    · have rest := ih h.2 (by omega) (by omega)
      have place : w + w * (n - (k + 1)) = w * (n - k) := by
        rw [Nat.add_comm,← Nat.mul_succ]
        congr 1
        omega
      rwa [Nat.add_assoc,place] at rest

theorem load_encode (h : Holds m address (encode value width)) :
    load m address width = value % 256 ^ width := by
  induction width generalizing address value with
  | zero => simp [load,Nat.mod_one]
  | succ width ih =>
    obtain ⟨first,rest⟩ := holds_cons.mp h
    rw [load,first,ih rest,Nat.pow_succ,Nat.mul_comm _ 256,Nat.mod_mul]
    simp

theorem load_u32 (h : Holds m address (encode value 4)) (fits : value < 2 ^ 32) :
    load m address 4 = value := by
  rw [load_encode h]
  exact Nat.mod_eq_of_lt fits

theorem load_u64 (h : Holds m address (encode value 8)) (fits : value < 2 ^ 64) :
    load m address 8 = value := by
  rw [load_encode h]
  exact Nat.mod_eq_of_lt fits

theorem copy_holds (h : Holds m address bytes) : copy m address bytes.length = bytes := by
  induction bytes generalizing address with
  | nil => rfl
  | cons byte rest ih =>
    obtain ⟨first,tail⟩ := holds_cons.mp h
    simp [copy,first,ih tail]

def image (address : Nat) (bytes : List UInt8) : Memory :=
  fun a => if address ≤ a then bytes.getD (a - address) 0 else 0

theorem image_holds (address : Nat) (bytes : List UInt8) :
    Holds (image address bytes) address bytes := by
  intro i bound
  simp [image,bound]

end LuaKernel.Bytes
