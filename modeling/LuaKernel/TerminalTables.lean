import LuaKernel.Terminal

/-! The terminal's tables by reference. When the screen is cleared the variable
`terminal_lines` is given a new table; whoever holds the old one, or a line of it, still has
it. -/
namespace LuaKernel.TerminalTables

open Terminal

/-- All tables that `terminal_lines` has named; the last is the one it names now. Tables only
grow, so a line is named by its table and its index there. -/
abbrev Tables := List (List Line)

structure Place where
  table : Nat
  index : Nat

def lineAt (tables : Tables) (place : Place) : Option Line :=
  tables[place.table]?.bind (·[place.index]?)

/-- `terminal_lines[#terminal_lines]`; `none` is `nil`. -/
def lastLine (tables : Tables) : Option Place :=
  tables.getLast?.bind fun lines =>
    lines.getLast?.map fun _ => ⟨tables.length - 1, lines.length - 1⟩

/-- A character goes to the last line, and a complete line is followed by another. -/
def insertChar (width : Nat) (c : UInt8) (lines : List Line) : Option (List Line) :=
  lines.getLast?.map fun line =>
    let line := line ++ [c]
    let lines := lines.dropLast ++ [line]
    if c = newline ∨ line.length ≥ wrapX width then lines ++ [[]] else lines

def writeChar (width height : Nat) (c : UInt8) (tables : Tables) : Option Tables := do
  let lines ← tables.getLast?
  let lines ← insertChar width c lines
  let tables := tables.dropLast ++ [lines]
  return if lines.length ≥ clearY height then tables ++ [[[]]] else tables

def write (width height : Nat) (buf : List UInt8) (tables : Tables) : Option Tables :=
  buf.foldlM (fun tables c => writeChar width height c tables) tables

def clear (tables : Tables) : Tables := tables ++ [[[]]]

/-- `table.remove(line, pos)`; `none` is its error for a position outside the line. -/
def remove (place : Place) (pos : Nat) (tables : Tables) : Option Tables := do
  let line ← lineAt tables place
  if pos ≠ line.length ∧ ¬(1 ≤ pos ∧ pos ≤ line.length + 1) then none else
  return tables.modify place.table fun lines =>
    lines.modify place.index fun line => if pos = 0 then line else line.eraseIdx (pos - 1)

def current (tables : Tables) : Option (List Line) := tables.getLast?

theorem modify_last (old : List α) (last : α) (f : α → α) :
    (old ++ [last]).modify old.length f = old ++ [f last] := by
  rw [List.modify_eq_take_cons_drop (by simp)]
  simp

theorem remove_last (old : Tables) (earlier : List Line) (line : Line) :
    remove ⟨old.length, earlier.length⟩ line.length (old ++ [earlier ++ [line]]) =
      some (old ++ [earlier ++ [line.dropLast]]) := by
  have there : lineAt (old ++ [earlier ++ [line]]) ⟨old.length, earlier.length⟩ = some line := by
    simp [lineAt]
  have erased : (if line.length = 0 then line else line.eraseIdx (line.length - 1)) =
      line.dropLast := by
    rw [List.eraseIdx_length_sub_one]
    split_ifs with empty
    · rw [List.length_eq_zero_iff.mp empty,List.dropLast_nil]
    · rfl
  simp only [remove,there,Option.bind_eq_bind,Option.bind_some,ne_eq,not_true_eq_false,false_and,
    ↓reduceIte,modify_last,erased]
  rfl

theorem insertChar_concat (width : Nat) (c : UInt8) (earlier : List Line) (last : Line) :
    insertChar width c (earlier ++ [last]) =
      some (if c = newline ∨ width ≤ 9 * (last.length + 1) then earlier ++ [last ++ [c],[]]
        else earlier ++ [last ++ [c]]) := by
  simp only [insertChar,List.getLast?_concat,List.dropLast_concat,Option.map_some,wrapX_le,
    List.length_append,List.length_singleton,List.append_assoc,List.cons_append,List.nil_append]

theorem writeChar_concat (inserted : insertChar width c lines = some next) (height : Nat)
    (old : Tables) : writeChar width height c (old ++ [lines]) =
      some (if height ≤ 15 * (next.length + 1) then old ++ [next,[[]]] else old ++ [next]) := by
  simp [writeChar,inserted,clearY_le]

theorem terminal_writeChar (width height : Nat) (c : UInt8) (lines : List Line) :
    Terminal.writeChar width height c lines = (insertChar width c lines).map fun next =>
      if next.length ≥ clearY height then [[]] else next := by
  cases last : lines.getLast? with
  | none => simp [Terminal.writeChar,insertChar,last]
  | some line =>
    simp only [Terminal.writeChar,insertChar,last,Option.map_some]
    rfl

theorem writeChar_current (width height : Nat) (c : UInt8) (tables : Tables) :
    (writeChar width height c tables).bind current =
      (current tables).bind (Terminal.writeChar width height c) := by
  cases found : tables.getLast? with
  | none => simp [writeChar,current,found]
  | some lines =>
    simp only [writeChar,current,found,Option.bind_eq_bind,Option.bind_some,terminal_writeChar]
    cases insertChar width c lines with
    | none => rfl
    | some next =>
      simp only [Option.pure_def,Option.bind_some,Option.map_some]
      split_ifs <;> exact List.getLast?_concat

theorem write_cons (width height : Nat) (c : UInt8) (rest : List UInt8) (tables : Tables) :
    write width height (c :: rest) tables =
      (writeChar width height c tables).bind (write width height rest) := rfl

theorem write_singleton (width height : Nat) (c : UInt8) (tables : Tables) :
    write width height [c] tables = writeChar width height c tables := by simp [write]

theorem write_current (width height : Nat) (buf : List UInt8) (tables : Tables) :
    (write width height buf tables).bind current =
      (current tables).bind (Terminal.write width height buf) := by
  induction buf generalizing tables with
  | nil => cases found : current tables <;> simp [write,Terminal.write,found]
  | cons c rest ih =>
    calc (write width height (c :: rest) tables).bind current
        = (writeChar width height c tables).bind fun next =>
            (write width height rest next).bind current := by
          rw [write_cons,Option.bind_assoc]
      _ = ((writeChar width height c tables).bind current).bind
            (Terminal.write width height rest) := by simp only [ih,Option.bind_assoc]
      _ = (current tables).bind (Terminal.write width height (c :: rest)) := by
          rw [writeChar_current,Option.bind_assoc]
          rfl

end LuaKernel.TerminalTables
