import LuaKernel.Drawing
import LuaKernel.TerminalPens

/-! One call of `draw_terminal` among the writes and key presses of other tasks. The count hook
can suspend a task before any instruction of the Lua machine, so a step here is what a task does
from one look at the shared tables to the next. A write through a system call is one step; a task
that calls `write` itself has a pen. -/
namespace LuaKernel.DrawTerminal

open Drawing Runs TerminalTables
open Terminal (Line newline)

/-- A key press in progress. For `terminal_lines[#terminal_lines]` Lua reads the variable, takes
the length of that table, and then indexes what the variable names by now. -/
inductive Key
  | idle
  /-- the table whose length is taken next -/
  | opened (echo : Bool) (table : Nat)
  | counted (echo : Bool) (n : Nat)
  /-- `'\b'`: the line, and then its length -/
  | held (line : Place)
  | measured (line : Place) (n : Nat)
  /-- a character to echo: the line is `nil`, and `terminal_lines[#terminal_lines + 1]` is to
  get a new one -/
  | missing
  | reopened (table : Nat)
  | slot (n : Nat)

/-- The locals of `draw_terminal`: the table it walks, the lines it has come to, the cursor. -/
structure Walk where
  table : Nat
  y : Nat
  cursorX : Nat
  cursorY : Nat

inductive Draw
  | ready
  | next (w : Walk)
  | line (w : Walk)
  | text (w : Walk) (str : Line)
  | done

/-- With the calls of `putpixel` that `draw_terminal` has made. -/
structure State where
  tables : Tables
  keys : Nat → Key
  pens : Nat → Pen
  draw : Draw
  drawn : List Putpixel

inductive Label
  | write (buf : List UInt8)
  /-- control and `'l'` -/
  | clear
  /-- a task comes to the branch of `key_pressed` for `'\b'`, or for a character to echo; Enter
  does nothing to the tables but write -/
  | press (task : Nat) (echo : Bool)
  | key (task : Nat)
  /-- a task calls `write(1, buf)` -/
  | call (task : Nat) (buf : List UInt8)
  | pen (task : Nat)
  | draw

/-- `terminal_lines[n + 1] = {}`, followed only if it extends the table: elsewhere it replaces a
line or leaves a gap. -/
def append (n : Nat) (tables : Tables) : Option Tables := do
  let lines ← tables.getLast?
  if lines.length = n then return tables.dropLast ++ [lines ++ [[]]] else none

/-- The next step of a key press. The echo itself is a `write`. -/
def keyStep (tables : Tables) : Key → Option (Key × Tables)
  | .idle => none
  | .opened echo table => tables[table]?.map fun lines => (.counted echo lines.length, tables)
  | .counted true n => some (if (fetch tables n).isSome then .idle else .missing, tables)
  | .counted false n => some ((fetch tables n).elim .idle .held, tables)
  | .held place => (lineAt tables place).map fun line => (.measured place line.length, tables)
  | .measured place n => some (.idle, (remove place n tables).getD tables)
  | .missing => some (.reopened (tables.length - 1), tables)
  | .reopened table => tables[table]?.map fun lines => (.slot lines.length, tables)
  | .slot n => (append n tables).map fun next => (.idle, next)

/-- The next step of `draw_terminal`, with the pixels it puts. While a text or the cursor is
drawn no table is looked at. -/
def drawStep (tables : Tables) : Draw → Option (Draw × List Putpixel)
  | .ready => some (.next ⟨tables.length - 1, 0, 0, 1⟩, [])
  | .next w =>
    match lineAt tables ⟨w.table, w.y⟩ with
    | some _ => some (.line { w with y := w.y + 1 }, [])
    | none =>
      some (.done, rectangle (w.cursorX * 8 + 10) (w.cursorY * 15 - 2) 1 14 255 255 255)
  | .line w => (lineAt tables ⟨w.table, w.y - 1⟩).map fun line => (.text w line, [])
  | .text w str =>
    some (.next { w with cursorX := str.length, cursorY := w.y }, drawtext 10 (w.y * 15) str)
  | .done => none

def step (width height : Nat) (s : State) : Label → Option State
  | .write buf => (write width height buf s.tables).map fun tables => { s with tables }
  | .clear => some { s with tables := clear s.tables }
  | .press task echo =>
    match s.keys task with
    | .idle =>
      some { s with keys := Function.update s.keys task (.opened echo (s.tables.length - 1)) }
    | _ => none
  | .key task => (keyStep s.tables (s.keys task)).map fun (key, tables) =>
      { s with tables, keys := Function.update s.keys task key }
  | .call task buf =>
    match s.pens task with
    | .idle => some { s with pens := Function.update s.pens task (.next buf) }
    | _ => none
  | .pen task => (penStep width height s.tables (s.pens task)).map fun (pen, tables) =>
      { s with tables, pens := Function.update s.pens task pen }
  | .draw => (drawStep s.tables s.draw).map fun (draw, pixels) =>
      { s with draw, drawn := s.drawn ++ pixels }

def start : State := ⟨[[[]]], fun _ => .idle, fun _ => .idle, .ready, []⟩

def Inside (width height : Nat) (p : Putpixel) : Prop :=
  (0 ≤ p.x ∧ p.x < width) ∧ 0 ≤ p.y ∧ p.y < height

def Finds (s : State) : Label → Prop
  | .key task => ∀ n, s.keys task = .counted true n → (fetch s.tables n).isSome = true
  | _ => True

/-- Nothing comes between the steps of a `write` that a task calls. -/
def Unbroken (s : State) (label : Label) : Prop :=
  ∀ task, s.pens task ≠ .idle → label = .pen task

/-- A line on the screen: only its last character may be a newline. -/
structure Fits (width : Nat) (line : Line) : Prop where
  text : newline ∉ line.dropLast
  length : 9 * (line.length - 1) < width

/-- A table that `terminal_lines` names or has named. When the screen was cleared its last line
was new, and no character has been written there since. -/
structure Shown (width height : Nat) (lines : List Line) : Prop where
  fits : ∀ line ∈ lines, Fits width line
  drawn : ∀ y line, lines[y]? = some line → line ≠ [] → 15 * (y + 1) + 12 < height
  count : 15 * lines.length < height

structure Sound (width height : Nat) (tables : Tables) : Prop where
  shown : ∀ lines ∈ tables, Shown width height lines
  current : ∃ earlier last, tables.getLast? = some (earlier ++ [last]) ∧
    Terminal.Open width last ∧ (earlier = [] ∨ 15 * (earlier.length + 2) < height)

section
variable {width height : Nat} (wide : 164 ≤ width) (high : 45 ≤ height)
include wide high

theorem sound_clear (tables : Tables) (shown : ∀ lines ∈ tables, Shown width height lines) :
    Sound width height (clear tables) := by
  refine ⟨fun lines member => ?_,[],[],List.getLast?_concat,Terminal.open_nil width,Or.inl rfl⟩
  rcases List.mem_append.mp member with old | new
  · exact shown lines old
  · rw [List.mem_singleton.mp new]
    have only : ∀ line ∈ ([[]] : List Line), line = [] := by simp
    refine ⟨fun line here => ?_,fun y line here some_ => ?_,by simp; omega⟩
    · rw [only line here]
      exact ⟨List.not_mem_nil,by simp; omega⟩
    · exact absurd (only line (List.mem_of_getElem? here)) some_

theorem Shown.insert {earlier : List Line} (shown : Shown width height (earlier ++ [last]))
    (open_ : Terminal.Open width last) (count : earlier = [] ∨ 15 * (earlier.length + 2) < height)
    (c : UInt8) (more : List Line) (new : more = [] ∨ more = [[]]) :
    Shown width height (earlier ++ (last ++ [c]) :: more) := by
  have empty : ∀ line ∈ more, line = [] := by rcases new with rfl | rfl <;> simp
  have few : more.length ≤ 1 := by rcases new with rfl | rfl <;> simp
  have room : 15 * (earlier.length + 2) < height := by
    rcases count with rfl | count
    · simp only [List.length_nil]
      omega
    · exact count
  refine ⟨fun line member => ?_,fun y line here some_ => ?_,?_⟩
  · rcases List.mem_append.mp member with old | member
    · exact shown.fits line (List.mem_append_left _ old)
    · rcases List.mem_cons.mp member with rfl | later
      · refine ⟨by simpa using open_.text,?_⟩
        rw [List.length_append,List.length_singleton,Nat.add_sub_cancel]
        rcases open_.room with rfl | fits
        · simp only [List.length_nil]
          omega
        · exact fits
      · rw [empty line later]
        exact ⟨List.not_mem_nil,by simp only [List.length_nil]; omega⟩
  · have upTo : y ≤ earlier.length := by
      by_contra beyond
      rw [List.getElem?_append_right (by omega),
        show y - earlier.length = (y - earlier.length - 1) + 1 by omega,
        List.getElem?_cons_succ] at here
      exact some_ (empty line (List.mem_of_getElem? here))
    omega
  · simp only [List.length_append,List.length_cons]
    omega

theorem writeChar_sound (sound : Sound width height tables) (c : UInt8)
    (written : writeChar width height c tables = some next) : Sound width height next := by
  obtain ⟨earlier,last,current,open_,count⟩ := sound.current
  obtain ⟨old,rfl⟩ := List.getLast?_eq_some_iff.mp current
  have shown := sound.shown _ (List.mem_append_right _ (List.mem_singleton_self _))
  have inserted := Shown.insert wide high shown open_ count c
  obtain ⟨lines,insert,good,rest,final,split,ends,small⟩ : ∃ lines,
      insertChar width c (earlier ++ [last]) = some lines ∧ Shown width height lines ∧
      ∃ rest final, lines = rest ++ [final] ∧ Terminal.Open width final ∧
        (¬height ≤ 15 * (lines.length + 1) → 15 * (rest.length + 2) < height) := by
    rw [insertChar_concat]
    refine ⟨_,rfl,?_⟩
    split_ifs with full
    · refine ⟨inserted [[]] (Or.inr rfl),earlier ++ [last ++ [c]],[],by simp,
        Terminal.open_nil width,fun room => ?_⟩
      simp only [List.length_append,List.length_cons,List.length_nil] at room ⊢
      omega
    · have plain := not_or.mp full
      refine ⟨inserted [] (Or.inl rfl),earlier,last ++ [c],rfl,
        open_.extend plain.1 (by simpa using plain.2),fun room => ?_⟩
      simp only [List.length_append,List.length_cons,List.length_nil] at room ⊢
      omega
  have all : ∀ other ∈ old ++ [lines], Shown width height other := by
    intro other member
    rcases List.mem_append.mp member with before | now
    · exact sound.shown other (List.mem_append_left _ before)
    · rw [List.mem_singleton.mp now]
      exact good
  rw [writeChar_concat insert] at written
  obtain rfl := Option.some.inj written
  split_ifs with full
  · have := sound_clear wide high (old ++ [lines]) all
    rwa [clear,List.append_assoc] at this
  · exact ⟨all,rest,final,by rw [split]; exact List.getLast?_concat,ends,Or.inr (small full)⟩

theorem write_sound (buf : List UInt8) (sound : Sound width height tables)
    (written : write width height buf tables = some next) : Sound width height next := by
  induction buf generalizing tables with
  | nil => exact Option.some.inj written ▸ sound
  | cons c rest ih =>
    rw [write_cons] at written
    obtain ⟨middle,first,later⟩ := Option.bind_eq_some_iff.mp written
    exact ih (writeChar_sound wide high sound c first) later

end

theorem Fits.sublist (fits : Fits width line) (part : shorter.Sublist line) :
    Fits width shorter := by
  have tails : shorter.dropLast.Sublist line.dropLast := by
    rw [← List.reverse_sublist,← List.tail_reverse,← List.tail_reverse]
    exact part.reverse.tail
  have := part.length_le
  have := fits.length
  exact ⟨fun member => fits.text (tails.subset member),by omega⟩

theorem Shown.modify (shown : Shown width height lines) (f : Line → Line)
    (part : ∀ line, List.Sublist (f line) line) (i : Nat) :
    Shown width height (lines.modify i f) := by
  have before : ∀ (y : Nat) (line : Line), (lines.modify i f)[y]? = some line →
      ∃ old, lines[y]? = some old ∧ List.Sublist line old := by
    intro y line here
    rw [List.getElem?_modify] at here
    obtain ⟨old,found,rfl⟩ := Option.map_eq_some_iff.mp here
    refine ⟨old,found,?_⟩
    split_ifs
    · exact part old
    · exact List.Sublist.refl old
  refine ⟨fun line member => ?_,fun y line here some_ => ?_,by simpa using shown.count⟩
  · obtain ⟨y,here⟩ := List.mem_iff_getElem?.mp member
    obtain ⟨old,found,sub⟩ := before y line here
    exact (shown.fits old (List.mem_of_getElem? found)).sublist sub
  · obtain ⟨old,found,sub⟩ := before y line here
    refine shown.drawn y old found fun none_ => some_ ?_
    rw [none_] at sub
    exact List.sublist_nil.mp sub

theorem open_sublist (open_ : Terminal.Open width line) (part : shorter.Sublist line) :
    Terminal.Open width shorter := by
  refine ⟨fun member => open_.text (part.subset member),?_⟩
  rcases open_.room with rfl | room
  · exact Or.inl (List.sublist_nil.mp part)
  · have := part.length_le
    exact Or.inr (by omega)

theorem modify_concat (earlier : List α) (last : α) (i : Nat) (f : α → α) :
    ∃ earlier' last', (earlier ++ [last]).modify i f = earlier' ++ [last'] ∧
      earlier'.length = earlier.length ∧ (last' = last ∨ last' = f last) := by
  rcases Nat.lt_trichotomy i earlier.length with less | rfl | more
  · refine ⟨earlier.modify i f,last,?_,by simp,Or.inl rfl⟩
    rw [List.modify_eq_take_cons_drop less,
      List.modify_eq_take_cons_drop (Nat.lt_of_lt_of_le less (by simp))]
    simp [List.take_append_of_le_length less.le,List.drop_append_of_le_length less,
      List.getElem_append_left less]
  · exact ⟨earlier,f last,modify_last earlier last f,rfl,Or.inr rfl⟩
  · refine ⟨earlier,last,List.modify_eq_self ?_,rfl,Or.inl rfl⟩
    rw [List.length_append,List.length_singleton]
    omega

theorem remove_modify (removed : remove place pos tables = some next) :
    ∃ f : Line → Line, (∀ line, List.Sublist (f line) line) ∧
      next = tables.modify place.table fun lines => lines.modify place.index f := by
  obtain ⟨line,-,removed⟩ := Option.bind_eq_some_iff.mp removed
  obtain ⟨-,result⟩ := Option.ite_none_left_eq_some.mp removed
  refine ⟨_,fun line => ?_,(Option.some.inj result).symm⟩
  split_ifs
  · exact List.Sublist.refl line
  · exact List.eraseIdx_sublist line (pos - 1)

theorem remove_sound (sound : Sound width height tables)
    (removed : remove place pos tables = some next) : Sound width height next := by
  obtain ⟨f,part,rfl⟩ := remove_modify removed
  obtain ⟨earlier,last,current,open_,count⟩ := sound.current
  obtain ⟨old,rfl⟩ := List.getLast?_eq_some_iff.mp current
  refine ⟨fun lines member => ?_,?_⟩
  · obtain ⟨t,here⟩ := List.mem_iff_getElem?.mp member
    rw [List.getElem?_modify] at here
    obtain ⟨before,found,rfl⟩ := Option.map_eq_some_iff.mp here
    have shown := sound.shown before (List.mem_of_getElem? found)
    split_ifs
    · exact shown.modify f part place.index
    · exact shown
  · obtain ⟨old',lines,split,-,same⟩ := modify_concat old (earlier ++ [last]) place.table
      fun lines => lines.modify place.index f
    rw [split,List.getLast?_concat]
    rcases same with rfl | rfl
    · exact ⟨earlier,last,rfl,open_,count⟩
    · obtain ⟨earlier',last',split',length,kept⟩ := modify_concat earlier last place.index f
      refine ⟨earlier',last',by rw [split'],?_,?_⟩
      · rcases kept with rfl | rfl
        · exact open_
        · exact open_sublist open_ (part last)
      · rw [length,← List.length_eq_zero_iff,length,List.length_eq_zero_iff]
        exact count

end LuaKernel.DrawTerminal
