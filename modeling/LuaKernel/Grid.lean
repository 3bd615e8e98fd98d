import Mathlib.Logic.Function.Basic
import LuaKernel.Bytes

/-! Rows of cells in flat memory. A row is `stride` bytes and may end in padding; a cell is `size`
bytes. What is put into one cell is read back from it and from no other. -/
namespace LuaKernel.Grid

open Bytes

def put (m : Memory) (address : Nat) : List UInt8 → Memory
  | [] => m
  | byte :: rest => put (Function.update m address byte) (address + 1) rest

def fill (m : Memory) (value : UInt8) (len : Nat) : Memory :=
  fun i => if i < len then value else m i

def transfer (target source : Memory) (len : Nat) : Memory :=
  fun i => if i < len then source i else target i

theorem put_outside (m : Memory) (address : Nat) (bytes : List UInt8) (i : Nat)
    (outside : i < address ∨ address + bytes.length ≤ i) : put m address bytes i = m i := by
  induction bytes generalizing m address with
  | nil => rfl
  | cons byte rest ih =>
    rw [List.length_cons] at outside
    rw [put,ih _ _ (by omega),Function.update_of_ne (by omega)]

theorem put_holds (m : Memory) (address : Nat) (bytes : List UInt8) :
    Holds (put m address bytes) address bytes := by
  induction bytes generalizing m address with
  | nil => exact holds_nil m address
  | cons byte rest ih =>
    have first := put_outside (Function.update m address byte) (address + 1) rest address
      (Or.inl (by omega))
    exact holds_cons.mpr ⟨first.trans (Function.update_self ..),ih _ _⟩

theorem load_congr (width : Nat) (same : ∀ i, address ≤ i → i < address + width → m i = m' i) :
    load m address width = load m' address width := by
  induction width generalizing address with
  | zero => rfl
  | succ width ih =>
    have rest := @ih (address + 1) (fun i above below => same i (by omega) (by omega))
    rw [load,load,rest,same address (Nat.le_refl _) (by omega)]

theorem copy_congr (width : Nat) (same : ∀ i, address ≤ i → i < address + width → m i = m' i) :
    copy m address width = copy m' address width := by
  induction width generalizing address with
  | zero => rfl
  | succ width ih =>
    have rest := @ih (address + 1) (fun i above below => same i (by omega) (by omega))
    rw [copy,copy,rest,same address (Nat.le_refl _) (by omega)]

theorem copy_length (m : Memory) (address width : Nat) : (copy m address width).length = width := by
  induction width generalizing address with
  | zero => rfl
  | succ width ih => rw [copy,List.length_cons,ih]

theorem copy_add (m : Memory) (address width more : Nat) :
    copy m address (width + more) = copy m address width ++ copy m (address + width) more := by
  induction width generalizing address with
  | zero => simp [copy]
  | succ width ih =>
    have next : address + 1 + width = address + (width + 1) := by omega
    rw [Nat.add_right_comm,copy,copy,ih,next,List.cons_append]

theorem copy_shift {m m' : Memory} (width : Nat)
    (same : ∀ i, i < width → m (address + i) = m' (other + i)) :
    copy m address width = copy m' other width := by
  induction width generalizing address other with
  | zero => rfl
  | succ width ih =>
    have first := same 0 (by omega)
    have rest := @ih (address + 1) (other + 1) fun i below => by
      have next := same (i + 1) (by omega)
      simpa [Nat.add_assoc,Nat.add_comm 1] using next
    rw [copy,copy,rest]
    exact congrArg (· :: _) first

theorem copy_update (m : Memory) (address width : Nat) (inside : offset < width) (byte : UInt8) :
    copy (Function.update m (address + offset) byte) address width =
      (copy m address width).set offset byte := by
  induction width generalizing address offset with
  | zero => omega
  | succ width ih =>
    cases offset with
    | zero =>
      have rest : copy (Function.update m address byte) (address + 1) width =
          copy m (address + 1) width :=
        copy_congr width fun i above _ => Function.update_of_ne (by omega) _ _
      simp [copy,rest]
    | succ offset =>
      have rest := @ih offset (address + 1) (by omega)
      rw [Nat.add_assoc,Nat.add_comm 1] at rest
      have first : Function.update m (address + (offset + 1)) byte address = m address :=
        Function.update_of_ne (by omega) _ _
      rw [copy,copy,List.set_cons_succ,rest,first]

theorem copy_put_self (m : Memory) (address : Nat) (bytes : List UInt8) :
    copy (put m address bytes) address bytes.length = bytes := by
  induction bytes generalizing m address with
  | nil => rfl
  | cons byte rest ih =>
    have first := put_outside (Function.update m address byte) (address + 1) rest address
      (Or.inl (by omega))
    rw [List.length_cons,put,copy,ih,first,Function.update_self]

/-- `memcpy` of `width` bytes, read before the first is stored. -/
theorem put_copy (m source : Memory) (address other width a : Nat) :
    put m address (copy source other width) a =
      if address ≤ a ∧ a < address + width then source (other + (a - address)) else m a := by
  induction width generalizing m address other with
  | zero => rw [copy,put,if_neg (by omega)]
  | succ width ih =>
    rw [copy,put,ih]
    by_cases first : a = address
    · subst first
      rw [if_neg (by omega),if_pos (by omega),Function.update_self,Nat.sub_self,Nat.add_zero]
    · rw [Function.update_of_ne first]
      by_cases inside : address + 1 ≤ a ∧ a < address + 1 + width
      · rw [if_pos inside,if_pos (by omega)]
        congr 1
        omega
      · rw [if_neg inside,if_neg (by omega)]

theorem copy_put_apart (m : Memory) (bytes : List UInt8) (width : Nat)
    (apart : address + bytes.length ≤ other ∨ other + width ≤ address) :
    copy (put m address bytes) other width = copy m other width :=
  copy_congr width fun i _ _ => put_outside m address bytes i (by omega)

theorem copy_fill (m : Memory) (value : UInt8) (width : Nat) (inside : address + width ≤ len) :
    copy (fill m value len) address width = List.replicate width value := by
  induction width generalizing address with
  | zero => rfl
  | succ width ih =>
    have here : fill m value len address = value := if_pos (by omega)
    rw [copy,ih (by omega),here,List.replicate_succ]

theorem copy_transfer (target source : Memory) (width : Nat) (inside : address + width ≤ len) :
    copy (transfer target source len) address width = copy source address width :=
  copy_congr width fun i _ _ => if_pos (by omega)

def cell (stride size x y : Nat) : Nat := y * stride + size * x

theorem cell_inside (column : size * (x + 1) ≤ stride) (row : y < rows) :
    cell stride size x y + size ≤ rows * stride := by
  have below : (y + 1) * stride ≤ rows * stride := Nat.mul_le_mul_right stride row
  rw [Nat.add_mul,Nat.one_mul] at below
  rw [Nat.mul_add,Nat.mul_one] at column
  rw [cell]
  omega

/-- A cell of an earlier row ends before one of a later row. -/
theorem cell_rows (column : size * (x + 1) ≤ stride) (rows : y < y') :
    cell stride size x y + size ≤ cell stride size x' y' :=
  Nat.le_trans (cell_inside column rows) (Nat.le_add_right _ _)

theorem cell_columns (columns : x < x') :
    cell stride size x y + size ≤ cell stride size x' y := by
  have below : size * (x + 1) ≤ size * x' := Nat.mul_le_mul_left size columns
  rw [Nat.mul_add,Nat.mul_one] at below
  rw [cell,cell]
  omega

theorem cell_apart (column : size * (x + 1) ≤ stride) (column' : size * (x' + 1) ≤ stride)
    (different : ¬(x = x' ∧ y = y')) :
    cell stride size x y + size ≤ cell stride size x' y' ∨
      cell stride size x' y' + size ≤ cell stride size x y := by
  rcases Nat.lt_trichotomy y y' with earlier | rfl | later
  · exact Or.inl (cell_rows column earlier)
  · rcases Nat.lt_trichotomy x x' with left | rfl | right
    · exact Or.inl (cell_columns left)
    · exact absurd ⟨rfl,rfl⟩ different
    · exact Or.inr (cell_columns right)
  · exact Or.inr (cell_rows column' later)

end LuaKernel.Grid
