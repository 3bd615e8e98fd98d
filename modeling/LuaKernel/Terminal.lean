import Mathlib.Algebra.Order.Field.Rat
import Mathlib.Data.List.Basic
import LuaKernel.Runs

/-! The lines of the terminal. A character goes to the end of the last line; a newline or a full
line starts another, and a full screen starts over. `WRAP_X` and `CLEAR_Y` are quotients, so
lengths are compared with rationals. -/
namespace LuaKernel.Terminal

open Runs

abbrev Line := List UInt8

def newline : UInt8 := 10

def wrapX (displayWidth : Nat) : ℚ := displayWidth / 9
def clearY (displayHeight : Nat) : ℚ := displayHeight / 15 - 1

/-- One character of a `write` to standard output; `none` is the error of a terminal without a
line, here and below. -/
def writeChar (width height : Nat) (c : UInt8) (lines : List Line) : Option (List Line) := do
  let line ← lines.getLast?
  let line := line ++ [c]
  let lines := lines.dropLast ++ [line]
  let lines := if c = newline ∨ line.length ≥ wrapX width then lines ++ [[]] else lines
  return if lines.length ≥ clearY height then [[]] else lines

def write (width height : Nat) (buf : List UInt8) (lines : List Line) : Option (List Line) :=
  buf.foldlM (fun lines c => writeChar width height c lines) lines

/-- The key `'\b'`: removing the last character of an empty line does nothing. -/
def backspace (lines : List Line) : Option (List Line) := do
  let line ← lines.getLast?
  return lines.dropLast ++ [line.dropLast]

inductive Op
  | stdout (buf : List UInt8)
  | backspace
  | ctrlL

def step (width height : Nat) (lines : List Line) : Op → Option (List Line)
  | .stdout buf => write width height buf lines
  | .backspace => backspace lines
  | .ctrlL => some [[]]

theorem wrapX_le (width length : Nat) : (length : ℚ) ≥ wrapX width ↔ width ≤ 9 * length := by
  rw [ge_iff_le,wrapX,div_le_iff₀ (by decide),mul_comm]
  norm_cast

theorem clearY_le (height count : Nat) :
    (count : ℚ) ≥ clearY height ↔ height ≤ 15 * (count + 1) := by
  rw [ge_iff_le,clearY,sub_le_iff_le_add,div_le_iff₀ (by decide),mul_comm]
  norm_cast

/-- A line that is no longer the last: it ends in its only newline or is as long as the screen
is wide, and it was not so long before its last character. -/
structure Complete (width : Nat) (line : Line) : Prop where
  full : (∃ text, line = text ++ [newline] ∧ newline ∉ text) ∨ width ≤ 9 * line.length
  fits : 9 * (line.length - 1) < width

structure Open (width : Nat) (line : Line) : Prop where
  text : newline ∉ line
  room : line = [] ∨ 9 * line.length < width

/-- The lines before the last are complete, and there are no more than the screen is high. -/
structure Tidy (width height : Nat) (lines : List Line) : Prop where
  split : ∃ earlier last, lines = earlier ++ [last] ∧
    (∀ line ∈ earlier, Complete width line) ∧ Open width last
  count : lines.length = 1 ∨ 15 * (lines.length + 1) < height

theorem open_nil (width : Nat) : Open width [] := ⟨List.not_mem_nil,Or.inl rfl⟩

theorem tidy_start (width height : Nat) : Tidy width height [[]] :=
  ⟨⟨[],[],rfl,nofun,open_nil width⟩,Or.inl rfl⟩

/-- A character that does not complete the line leaves it open. -/
theorem Open.extend (open_ : Open width line) (plain : c ≠ newline)
    (short : ¬width ≤ 9 * (line ++ [c]).length) : Open width (line ++ [c]) := by
  refine ⟨?_,Or.inr (by omega)⟩
  simp [open_.text,plain.symm]

theorem Open.complete (open_ : Open width line) (positive : 1 ≤ width)
    (full : c = newline ∨ width ≤ 9 * (line ++ [c]).length) : Complete width (line ++ [c]) := by
  constructor
  · rcases full with rfl | full
    · exact Or.inl ⟨line,rfl,open_.text⟩
    · exact Or.inr full
  · rw [List.length_append,List.length_singleton,Nat.add_sub_cancel]
    rcases open_.room with rfl | room
    · exact positive
    · exact room

theorem tidy_clear {lines : List Line}
    (split : ∃ earlier last, lines = earlier ++ [last] ∧
      (∀ line ∈ earlier, Complete width line) ∧ Open width last) :
    Tidy width height (if lines.length ≥ clearY height then [[]] else lines) := by
  simp only [clearY_le]
  split_ifs with full
  · exact tidy_start width height
  · exact ⟨split,Or.inr (by omega)⟩

theorem writeChar_tidy (positive : 1 ≤ width) (tidy : Tidy width height lines) (c : UInt8) :
    ∃ next, writeChar width height c lines = some next ∧ Tidy width height next := by
  obtain ⟨earlier,last,rfl,complete,open_⟩ := tidy.split
  refine ⟨_,by rw [writeChar,List.getLast?_concat,List.dropLast_concat]; rfl,tidy_clear ?_⟩
  simp only [wrapX_le]
  split_ifs with full
  · refine ⟨earlier ++ [last ++ [c]],[],rfl,?_,open_nil width⟩
    intro line member
    rcases List.mem_append.mp member with old | new
    · exact complete line old
    · rw [List.mem_singleton.mp new]
      exact open_.complete positive full
  · have plain := not_or.mp full
    exact ⟨earlier,last ++ [c],rfl,complete,open_.extend plain.1 plain.2⟩

theorem write_tidy (positive : 1 ≤ width) (buf : List UInt8) (tidy : Tidy width height lines) :
    ∃ next, write width height buf lines = some next ∧ Tidy width height next := by
  induction buf generalizing lines with
  | nil => exact ⟨lines,rfl,tidy⟩
  | cons c rest ih =>
    obtain ⟨middle,first,tidy'⟩ := writeChar_tidy positive tidy c
    obtain ⟨next,others,tidy''⟩ := ih tidy'
    rw [write] at others
    exact ⟨next,by simp [write,first,others],tidy''⟩

/-- A terminal with a line keeps one, and takes every text. -/
theorem write_nonempty (width height : Nat) (buf : List UInt8) (start : lines ≠ []) :
    ∃ next, write width height buf lines = some next ∧ next ≠ [] := by
  induction buf generalizing lines with
  | nil => exact ⟨lines,rfl,start⟩
  | cons c rest ih =>
    obtain ⟨earlier,last,rfl⟩ := (List.eq_nil_or_concat' lines).resolve_left start
    obtain ⟨middle,first,some_⟩ : ∃ middle,
        writeChar width height c (earlier ++ [last]) = some middle ∧ middle ≠ [] := by
      refine ⟨_,by rw [writeChar,List.getLast?_concat,List.dropLast_concat]; rfl,?_⟩
      split_ifs <;> simp
    obtain ⟨next,others,ended⟩ := ih some_
    rw [write] at others
    exact ⟨next,by simp [write,first,others],ended⟩

theorem backspace_tidy (tidy : Tidy width height lines) :
    ∃ next, backspace lines = some next ∧ Tidy width height next := by
  obtain ⟨earlier,last,rfl,complete,open_⟩ := tidy.split
  refine ⟨earlier ++ [last.dropLast],by simp [backspace],?_,by simpa using tidy.count⟩
  refine ⟨earlier,last.dropLast,rfl,complete,?_,?_⟩
  · exact fun member => open_.text (List.dropLast_subset last member)
  · rcases open_.room with rfl | room
    · exact Or.inl rfl
    · exact Or.inr (by rw [List.length_dropLast]; omega)

theorem step_tidy (positive : 1 ≤ width) (tidy : Tidy width height lines) (op : Op) :
    ∃ next, step width height lines op = some next ∧ Tidy width height next := by
  cases op with
  | stdout buf => exact write_tidy positive buf tidy
  | backspace => exact backspace_tidy tidy
  | ctrlL => exact ⟨[[]],rfl,tidy_start width height⟩

/-- After any writes and keys the terminal is tidy. -/
theorem terminal_tidy (width height : Nat) (positive : 1 ≤ width) (ops : List Op) :
    ∃ lines, run (step width height) [[]] ops = some lines ∧ Tidy width height lines := by
  suffices general : ∀ start, Tidy width height start →
      ∃ lines, run (step width height) start ops = some lines ∧ Tidy width height lines from
    general [[]] (tidy_start width height)
  induction ops with
  | nil => exact fun start tidy => ⟨start,rfl,tidy⟩
  | cons op rest ih =>
    intro start tidy
    obtain ⟨next,moved,tidy'⟩ := step_tidy positive tidy op
    obtain ⟨lines,ran,ended⟩ := ih next tidy'
    exact ⟨lines,(run_cons start lines op rest).mpr ⟨next,moved,ran⟩,ended⟩

/-- Two columns: a wrap, then a newline at the wrap column that starts the screen over, and a
backspace on an empty line. -/
theorem smallScreen_tidy : ∃ lines,
    run (step 10 60) [[]] [.stdout [97, 98, 99, 10], .backspace, .ctrlL, .stdout [97]] =
      some lines ∧ Tidy 10 60 lines :=
  terminal_tidy 10 60 (by decide) _

end LuaKernel.Terminal
