import LuaKernel.Keys
import LuaKernel.TerminalTables

/-! The command line. What is typed is kept nowhere but on the terminal: Enter loads the last
line of the screen, and a line that is full is no longer the last. -/
namespace LuaKernel.CommandLine

open Terminal (Line newline)
open Keys TerminalTables

structure Console where
  keys : Keys.State
  tables : Tables

/-- What `key_pressed` does to the terminal, with the string it passes to `load`; what the chunk
does when it is run is not part of it. -/
def perform (width height : Nat) : Action → Tables → Option (Tables × Option Line)
  | .backspace, tables => do
    let place ← lastLine tables
    let line ← lineAt tables place
    let tables ← remove place line.length tables
    return (tables, none)
  | .enter, tables => do
    let place ← lastLine tables
    let tables ← write width height [newline] tables
    let linestr ← lineAt tables place
    return (tables, some linestr)
  | .clear, tables => some (clear tables, none)
  | .tilda, tables => some (tables, none)
  | .echo c, tables => do
    let tables ← match lastLine tables with
      | some _ => some tables
      | none => tables.getLast?.map fun lines => tables.dropLast ++ [lines ++ [[]]]
    let tables ← write width height [c] tables
    return (tables, none)

def keyPressed (width height : Nat) (scancode : Nat) (console : Console) :
    Option (Console × Option Line) :=
  let (keys, action) := Keys.keyPressed scancode console.keys
  match action with
  | none => some (⟨keys, console.tables⟩, none)
  | some action => (perform width height action console.tables).map fun (tables, loaded) =>
    (⟨keys, tables⟩, loaded)

/-- One press after the other, with the strings passed to `load`. -/
def pressAll (width height : Nat) (console : Console) : List Nat → Option (Console × List Line)
  | [] => some (console, [])
  | scancode :: rest => do
    let (console, loaded) ← keyPressed width height scancode console
    let (console, others) ← pressAll width height console rest
    return (console, loaded.toList ++ others)

def actions (keys : Keys.State) : List Nat → List Action
  | [] => []
  | scancode :: rest =>
    (Keys.keyPressed scancode keys).2.toList ++ actions (Keys.keyPressed scancode keys).1 rest

def Edit : Action → Prop
  | .echo _ | .backspace => True
  | _ => False

def edit (text : Line) : Action → Line
  | .echo c => text ++ [c]
  | .backspace => text.dropLast
  | _ => text

theorem edit_echo (text : Line) (c : UInt8) : edit text (.echo c) = text ++ [c] := rfl
theorem edit_backspace (text : Line) : edit text .backspace = text.dropLast := rfl

def edited (keys : List Action) : Line := keys.foldl edit []

/-- Since the text was last empty it has stayed shorter than a line of the screen. -/
def Short (width : Nat) (keys : List Action) : Prop :=
  ∃ before after, keys = before ++ after ∧ edited before = [] ∧
    ∀ part, part <+: after → 9 * (edited (before ++ part)).length < width

theorem edited_concat (keys : List Action) (key : Action) :
    edited (keys ++ [key]) = edit (edited keys) key := by simp [edited]

theorem short_nil (positive : 0 < width) : Short width [] := by
  refine ⟨[],[],rfl,rfl,fun part inside => ?_⟩
  rw [List.prefix_nil.mp inside]
  exact positive

/-- One key more: the text is empty now, or it has stayed short and still is. -/
theorem short_concat (positive : 0 < width) (keys : List Action) (key : Action) :
    Short width (keys ++ [key]) ↔ edited (keys ++ [key]) = [] ∨
      (Short width keys ∧ 9 * (edited (keys ++ [key])).length < width) := by
  constructor
  · rintro ⟨before,after,split,empty,short⟩
    rcases List.eq_nil_or_concat after with rfl | ⟨after,last,rfl⟩
    · rw [List.append_nil] at split
      exact Or.inl (split ▸ empty)
    · rw [List.concat_eq_append,← List.append_assoc] at split
      obtain ⟨rfl,same⟩ := List.append_inj' split rfl
      refine Or.inr ⟨⟨before,after,rfl,empty,fun part inside => short part ?_⟩,?_⟩
      · rw [List.concat_eq_append]
        exact inside.trans (List.prefix_append after [last])
      · have whole := short _ (List.prefix_refl _)
        rwa [List.concat_eq_append,← List.append_assoc,← same] at whole
  · rintro (empty | ⟨⟨before,after,rfl,empty,short⟩,now⟩)
    · refine ⟨_,[],(List.append_nil _).symm,empty,fun part inside => ?_⟩
      rw [List.prefix_nil.mp inside,List.append_nil,empty]
      exact positive
    · refine ⟨before,after ++ [key],List.append_assoc _ _ _,empty,fun part inside => ?_⟩
      rcases List.prefix_concat_iff.mp inside with rfl | inside
      · rwa [← List.append_assoc]
      · exact short part inside

structure Prompt (height : Nat) (tables : Tables) (line : Line) : Prop where
  split : ∃ old earlier, tables = old ++ [earlier ++ [line]] ∧ 15 * (earlier.length + 2) < height

theorem Prompt.lastLine (prompt : Prompt height tables line) :
    ∃ place, lastLine tables = some place ∧ lineAt tables place = some line := by
  obtain ⟨old,earlier,rfl,-⟩ := prompt.split
  exact ⟨⟨old.length,earlier.length⟩,by simp [TerminalTables.lastLine],by simp [lineAt]⟩

theorem Prompt.extend (prompt : Prompt height tables line) (plain : c ≠ newline)
    (fits : 9 * (line.length + 1) < width) :
    ∃ next, write width height [c] tables = some next ∧ Prompt height next (line ++ [c]) := by
  obtain ⟨old,earlier,rfl,count⟩ := prompt.split
  have inserted := insertChar_concat width c earlier line
  rw [if_neg (by simp [plain,fits])] at inserted
  have room : ¬height ≤ 15 * ((earlier ++ [line ++ [c]]).length + 1) := by simp; omega
  have done := writeChar_concat inserted height old
  rw [if_neg room] at done
  exact ⟨_,(write_singleton _ _ _ _).trans done,old,earlier,rfl,count⟩

/-- A character that completes the line: the next is empty, and so is that of a screen cleared
for it. The line is still where it was. -/
theorem Prompt.complete (prompt : Prompt height tables line) (width : Nat) (high : 45 ≤ height)
    (full : c = newline ∨ width ≤ 9 * (line.length + 1)) :
    ∃ place next, TerminalTables.lastLine tables = some place ∧
      write width height [c] tables = some next ∧ Prompt height next [] ∧
      lineAt next place = some (line ++ [c]) := by
  obtain ⟨old,earlier,rfl,count⟩ := prompt.split
  have inserted := insertChar_concat width c earlier line
  rw [if_pos full] at inserted
  have done := writeChar_concat inserted height old
  refine ⟨⟨old.length,earlier.length⟩,_,by simp [TerminalTables.lastLine],
    (write_singleton _ _ _ _).trans done,?_,?_⟩
  · split_ifs with cleared
    · exact ⟨old ++ [earlier ++ [line ++ [c],[]]],[],by simp,by simp; omega⟩
    · exact ⟨old,earlier ++ [line ++ [c]],by simp,by simp at cleared ⊢; omega⟩
  · split_ifs <;> simp [lineAt]

theorem Prompt.remove (prompt : Prompt height tables line) :
    ∃ place next, TerminalTables.lastLine tables = some place ∧
      lineAt tables place = some line ∧
      TerminalTables.remove place line.length tables = some next ∧
      Prompt height next line.dropLast := by
  obtain ⟨old,earlier,rfl,count⟩ := prompt.split
  exact ⟨⟨old.length,earlier.length⟩,_,by simp [TerminalTables.lastLine],by simp [lineAt],
    remove_last old earlier line,old,earlier,rfl,count⟩

/-- The keys so far. What they make is the last line and what has left it, which is nothing
exactly when the text has stayed short. -/
structure Typed (width height : Nat) (keys : List Action) (tables : Tables) (line : Line) :
    Prop where
  prompt : Prompt height tables line
  text : newline ∉ edited keys
  room : line = [] ∨ 9 * line.length < width
  hidden : ∃ hidden, edited keys = hidden ++ line ∧ (hidden = [] ↔ Short width keys)

theorem Typed.echo (typed : Typed width height keys tables line) (positive : 0 < width)
    (high : 45 ≤ height) (plain : c ≠ newline) :
    ∃ next line', write width height [c] tables = some next ∧
      Typed width height (keys ++ [.echo c]) next line' := by
  obtain ⟨hidden,made,short⟩ := typed.hidden
  have made' : edited (keys ++ [.echo c]) = hidden ++ line ++ [c] := by
    rw [edited_concat,edit_echo,made]
  have text : newline ∉ edited (keys ++ [.echo c]) := by
    have old := typed.text
    rw [made] at old
    simpa [made',plain.symm] using old
  have now := short_concat positive keys (.echo c)
  rw [made',← short] at now
  by_cases fits : 9 * (line.length + 1) < width
  · obtain ⟨next,done,prompt⟩ := typed.prompt.extend plain fits
    refine ⟨next,line ++ [c],done,prompt,text,Or.inr (by simpa using fits),hidden,?_,?_⟩
    · rw [made',List.append_assoc]
    · rw [now]
      constructor
      · rintro rfl
        exact Or.inr ⟨rfl,by simpa using fits⟩
      · rintro (empty | ⟨rfl,-⟩)
        · simp at empty
        · rfl
  · obtain ⟨place,next,-,done,prompt,-⟩ :=
      typed.prompt.complete width high (Or.inr (Nat.not_lt.mp fits))
    refine ⟨next,[],done,prompt,text,Or.inl rfl,hidden ++ line ++ [c],?_,?_⟩
    · rw [made',List.append_nil]
    · rw [now]
      constructor
      · exact Or.inl
      · rintro (empty | ⟨-,bound⟩)
        · exact empty
        · simp only [List.length_append,List.length_singleton] at bound
          omega

theorem Typed.backspace (typed : Typed width height keys tables line) (positive : 0 < width) :
    ∃ place next, lastLine tables = some place ∧ lineAt tables place = some line ∧
      remove place line.length tables = some next ∧
      Typed width height (keys ++ [.backspace]) next line.dropLast := by
  obtain ⟨place,next,last,there,done,prompt⟩ := typed.prompt.remove
  obtain ⟨hidden,made,short⟩ := typed.hidden
  have made' : edited (keys ++ [.backspace]) = (hidden ++ line).dropLast := by
    rw [edited_concat,edit_backspace,made]
  have text : newline ∉ edited (keys ++ [.backspace]) := by
    rw [made',← made]
    exact fun member => typed.text (List.dropLast_subset _ member)
  have room : line.dropLast = [] ∨ 9 * line.dropLast.length < width := by
    rcases typed.room with rfl | room
    · exact Or.inl rfl
    · exact Or.inr (by rw [List.length_dropLast]; omega)
  have now := short_concat positive keys .backspace
  rw [made',← short] at now
  refine ⟨place,next,last,there,done,prompt,text,room,?_⟩
  rcases List.eq_nil_or_concat line with rfl | ⟨rest,c,rfl⟩
  · rw [List.append_nil] at now made'
    refine ⟨hidden.dropLast,by simpa using made',?_⟩
    rw [now]
    constructor
    · exact Or.inl
    · rintro (empty | ⟨rfl,-⟩)
      · exact empty
      · rfl
  · rw [List.concat_eq_append,← List.append_assoc,List.dropLast_concat] at now made'
    rw [List.concat_eq_append,List.dropLast_concat] at room ⊢
    refine ⟨hidden,made',?_⟩
    rw [now]
    constructor
    · rintro rfl
      rcases room with rfl | room
      · exact Or.inl rfl
      · exact Or.inr ⟨rfl,room⟩
    · rintro (empty | ⟨rfl,-⟩)
      · exact (List.append_eq_nil_iff.mp empty).1
      · rfl

theorem keyPressed_echo (chosen : (Keys.keyPressed scancode keys).2 = some (.echo c)) :
    c ≠ newline := by
  unfold Keys.keyPressed at chosen
  split_ifs at chosen
  split at chosen
  · simp at chosen
  · obtain ⟨d,-,echo⟩ := Option.map_eq_some_iff.mp chosen
    obtain ⟨rfl,plain⟩ := branch_echo echo
    exact plain

theorem Typed.press (typed : Typed width height keys tables line) (positive : 0 < width)
    (high : 45 ≤ height) (scancode : Nat) (state : Keys.State)
    (edits : ∀ key ∈ (Keys.keyPressed scancode state).2.toList, Edit key) :
    ∃ next line', keyPressed width height scancode ⟨state, tables⟩ =
        some (⟨(Keys.keyPressed scancode state).1, next⟩, none) ∧
      Typed width height (keys ++ (Keys.keyPressed scancode state).2.toList) next line' := by
  unfold keyPressed
  cases chosen : (Keys.keyPressed scancode state).2 with
  | none => exact ⟨tables,line,by simp [chosen],by simpa using typed⟩
  | some key =>
    have edit := edits key (by simp [chosen])
    cases key with
    | echo c =>
      obtain ⟨place,last,-⟩ := typed.prompt.lastLine
      obtain ⟨next,line',done,typed'⟩ := typed.echo positive high (keyPressed_echo chosen)
      exact ⟨next,line',by simp [chosen,perform,last,done],typed'⟩
    | backspace =>
      obtain ⟨place,next,last,there,done,typed'⟩ := typed.backspace positive
      exact ⟨next,_,by simp [chosen,perform,last,there,done],typed'⟩
    | _ => exact absurd edit id

theorem Typed.pressAll (positive : 0 < width) (high : 45 ≤ height) (scancodes : List Nat)
    (state : Keys.State) (typed : Typed width height keys tables line)
    (edits : ∀ key ∈ actions state scancodes, Edit key) :
    ∃ final line', pressAll width height ⟨state, tables⟩ scancodes = some (final, []) ∧
      Typed width height (keys ++ actions state scancodes) final.tables line' := by
  induction scancodes generalizing state tables keys line with
  | nil => exact ⟨_,line,rfl,by simpa [actions] using typed⟩
  | cons scancode rest ih =>
    simp only [actions,List.mem_append] at edits
    obtain ⟨next,_,done,typed'⟩ :=
      typed.press positive high scancode state fun key member => edits key (Or.inl member)
    obtain ⟨final,line',others,ended⟩ :=
      ih _ typed' fun key member => edits key (Or.inr member)
    refine ⟨final,line',by simp [CommandLine.pressAll,done,others],?_⟩
    rwa [actions,← List.append_assoc]

/-- Enter, at a prompt: the line is loaded with the newline that ends it. -/
theorem Prompt.enter (prompt : Prompt height tables line) (width : Nat) (high : 45 ≤ height)
    (state : Keys.State) : ∃ final, keyPressed width height 0x1c ⟨state, tables⟩ =
      some (final, some (line ++ [newline])) := by
  obtain ⟨place,next,last,done,-,there⟩ := prompt.complete width high (Or.inl rfl)
  have chosen : (Keys.keyPressed 0x1c state).2 = some .enter := rfl
  exact ⟨_,by simp [keyPressed,chosen,perform,last,done,there]; rfl⟩

theorem pressAll_concat (pressed : pressAll width height console scancodes = some (middle, []))
    (last : keyPressed width height scancode middle = some (final, loaded)) :
    pressAll width height console (scancodes ++ [scancode]) = some (final, loaded.toList) := by
  induction scancodes generalizing console with
  | nil =>
    obtain rfl : console = middle := by simpa [pressAll] using pressed
    simp [pressAll,last]
  | cons first rest ih =>
    obtain ⟨⟨next,none_⟩,done,more⟩ := Option.bind_eq_some_iff.mp pressed
    obtain ⟨⟨_,nothing⟩,others,same⟩ := Option.bind_eq_some_iff.mp more
    obtain ⟨rfl,rfl,rfl⟩ := by simpa using same
    simp [pressAll,done,ih others]

/-- Enter passes the text typed before it to `load`, or the text and a newline. -/
def LoadsText (width height : Nat) (console : Console) (typed : List Nat) : Prop :=
  ∃ final loaded, pressAll width height console (typed ++ [0x1c]) = some (final, [loaded]) ∧
    (loaded = edited (actions console.keys typed) ∨
      loaded = edited (actions console.keys typed) ++ [newline])

/-- From an empty line, on a screen that is not full, Enter loads what was typed exactly when
the text has stayed shorter than a line of the screen since it was last empty. -/
theorem loads_text_iff (width height : Nat) (positive : 1 ≤ width) (high : 45 ≤ height)
    (console : Console) (lines : List Line) (now : current console.tables = some lines)
    (empty : lines.getLast? = some [])
    (count : lines.length = 1 ∨ 15 * (lines.length + 1) < height)
    (typed : List Nat) (edits : ∀ key ∈ actions console.keys typed, Edit key) :
    LoadsText width height console typed ↔ Short width (actions console.keys typed) := by
  obtain ⟨earlier,rfl⟩ := List.getLast?_eq_some_iff.mp empty
  obtain ⟨old,tables⟩ := List.getLast?_eq_some_iff.mp now
  have prompt : Prompt height console.tables [] := by
    simp only [List.length_append,List.length_singleton] at count
    exact ⟨old,earlier,tables,by omega⟩
  have start : Typed width height [] console.tables [] :=
    ⟨prompt,List.not_mem_nil,Or.inl rfl,[],rfl,iff_of_true rfl (short_nil positive)⟩
  obtain ⟨middle,line,pressed,ended⟩ := start.pressAll positive high typed console.keys edits
  rw [List.nil_append] at ended
  obtain ⟨final,entered⟩ := ended.prompt.enter width high middle.keys
  have done := pressAll_concat pressed entered
  obtain ⟨hidden,made,short⟩ := ended.hidden
  have text := ended.text
  rw [LoadsText,made,← short]
  rw [made] at text
  constructor
  · rintro ⟨_,loaded,done',same⟩
    obtain ⟨-,rfl⟩ := by simpa using done.symm.trans done'
    rcases same with same | same
    · exact absurd (same ▸ List.mem_concat_self) text
    · simpa using same
  · rintro rfl
    exact ⟨final,_,done,Or.inr rfl⟩

def boot : Console := ⟨Keys.boot, [[[]]]⟩

/-- The keys A and B, and backspace. -/
theorem loads_one_letter : LoadsText 80 45 boot [0x1e, 0x30, 0x0e] := by
  have positive : 0 < 80 := by decide
  refine (loads_text_iff 80 45 positive (by decide) boot [[]] rfl rfl (Or.inl rfl) _ ?_).mpr ?_
  · have keys : actions boot.keys [0x1e, 0x30, 0x0e] = [.echo 97,.echo 98,.backspace] := rfl
    intro key member
    simp only [keys,List.mem_cons,List.not_mem_nil,or_false] at member
    rcases member with rfl | rfl | rfl <;> trivial
  · have one := (short_concat positive [] (.echo 97)).mpr (Or.inr ⟨short_nil positive,by decide⟩)
    have two := (short_concat positive _ (.echo 98)).mpr (Or.inr ⟨one,by decide⟩)
    exact (short_concat positive _ .backspace).mpr (Or.inr ⟨two,by decide⟩)

/-- On a screen two characters wide the keys A and B fill a line, and Enter loads the empty one
below it. -/
theorem loads_empty_line :
    (pressAll 18 45 boot [0x1e, 0x30, 0x1c]).map (·.2) = some [[newline]] ∧
      edited (actions boot.keys [0x1e, 0x30]) = [97, 98] ∧
      ¬LoadsText 18 45 boot [0x1e, 0x30] := by
  have loaded : (pressAll 18 45 boot [0x1e, 0x30, 0x1c]).map (·.2) = some [[newline]] := by
    decide +kernel
  refine ⟨loaded,rfl,?_⟩
  rintro ⟨final,line,done,same⟩
  rw [List.cons_append,List.cons_append,List.nil_append] at done
  obtain rfl : [newline] = line := by simpa [done] using loaded.symm
  rcases same with same | same <;> exact absurd same (by decide)

end LuaKernel.CommandLine
