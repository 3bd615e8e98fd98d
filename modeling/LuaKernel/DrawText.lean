import LuaKernel.Drawing

/-! Texts of several lines and texts on one line. A newline moves `drawtext` to the first column
and is then counted as a character itself, so a line behind one starts a character's width to
the right. On one line the glyphs are drawn from left to right; the only ones wider than a
character's width are blank there, and what they blank is drawn later. -/
namespace LuaKernel.Drawing

open Font
open Terminal (newline)

/-- A newline puts what follows it 8 columns from the first. -/
theorem drawChars_newline (x y space : Int) (a b : List UInt8) :
    drawChars x y space (a ++ newline :: b) =
      drawChars x y space a ++ drawChars x (y + 15 * (a.count newline + 1)) 8 b := by
  induction a generalizing y space with
  | nil => simp [drawChars,drawchar_newline]
  | cons c rest ih =>
    rw [List.cons_append,drawChars,drawChars]
    by_cases line : c = newline
    · subst line
      have rows : y + 15 + 15 * ((rest.count newline : Int) + 1) =
          y + 15 * (((newline :: rest).count newline : Nat) + 1) := by
        rw [List.count_cons_self]
        omega
      simp only [↓reduceIte,ih,rows,List.append_assoc]
    · have rows : (c :: rest).count newline = rest.count newline :=
        List.count_cons_of_ne line
      simp only [line,↓reduceIte,ih,rows,List.append_assoc]

theorem font_drawn : ∀ entry ∈ font,
    drawGlyph 0 0 255 255 255 0 0 (entry.2.flatMap fun row => row.toList ++ ['\n']) ≠ [] := by
  decide +kernel

theorem drawchar_shift (x y : Int) (c : UInt8) :
    drawchar x y c 255 255 255 = (drawchar 0 0 c 255 255 255).map (shift x y) := by
  unfold drawchar
  cases glyph c with
  | none => rfl
  | some f => exact drawGlyph_shift x y 255 255 255 0 0 f

theorem drawchar_nil (c : UInt8) : drawchar 0 0 c 255 255 255 = [] ↔ glyph c = none := by
  unfold drawchar
  cases found : glyph c with
  | none => simp
  | some f =>
    obtain ⟨entry,listed,rfl⟩ := glyph_mem found
    exact iff_of_false (font_drawn entry listed) (by simp)

/-- Drawn in two columns, a character with a glyph gives two sequences. -/
theorem drawchar_column (y : Int) (different : x ≠ x') (c : UInt8) :
    drawchar x y c 255 255 255 = drawchar x' y c 255 255 255 ↔ glyph c = none := by
  rw [← drawchar_nil,drawchar_shift x,drawchar_shift x']
  cases drawchar 0 0 c 255 255 255 with
  | nil => simp
  | cons p rest =>
    refine iff_of_false (fun same => different ?_) (by simp)
    have first := congrArg Putpixel.x (List.cons.inj same).1
    simpa [shift] using first

/-- Where the first line starts matters to its characters with a glyph, and to no later line. -/
theorem drawChars_space (x y : Int) (different : space ≠ space') (text : List UInt8) :
    drawChars x y space text = drawChars x y space' text ↔
      ∀ c ∈ text.takeWhile (· ≠ newline), glyph c = none := by
  induction text generalizing space space' with
  | nil => simp [drawChars]
  | cons c rest ih =>
    rw [drawChars,drawChars]
    by_cases line : c = newline
    · subst line
      simp
    · have apart : x + space ≠ x + space' := by omega
      have lengths : (drawchar (x + space) y c 255 255 255).length =
          (drawchar (x + space') y c 255 255 255).length := by
        rw [drawchar_shift (x + space),drawchar_shift (x + space'),List.length_map,
          List.length_map]
      have later := @ih (space + 8) (space' + 8) (by omega)
      have cut : (c :: rest).takeWhile (· ≠ newline) = c :: rest.takeWhile (· ≠ newline) :=
        List.takeWhile_cons_of_pos (by simpa using line)
      rw [cut,List.forall_mem_cons,← drawchar_column y apart c,← later]
      simp only [line,↓reduceIte]
      constructor
      · exact fun same => List.append_inj same lengths
      · rintro ⟨here,rest_⟩
        rw [here,rest_]

/-- `drawtext` draws line by line exactly when the first line behind the newline has no character
with a glyph. -/
theorem drawtext_lines_iff (x y : Int) (a b : List UInt8) :
    drawtext x y (a ++ newline :: b) =
        drawtext x y a ++ drawtext x (y + 15 * (a.count newline + 1)) b ↔
      ∀ c ∈ b.takeWhile (· ≠ newline), glyph c = none := by
  rw [drawtext,drawtext,drawtext,drawChars_newline,List.append_right_inj]
  exact drawChars_space x _ (by decide) b

/-- The dash of a second line starts at column 8, and drawn by itself at column 0. -/
theorem second_line_moved :
    (drawtext 0 0 [45, newline, 45]).getLast? = some ⟨11, 26, 0, 0, 0⟩ ∧
      (drawtext 0 0 [45] ++ drawtext 0 15 [45]).getLast? = some ⟨3, 26, 0, 0, 0⟩ ∧
      drawtext 0 0 ([45] ++ newline :: [45]) ≠
        drawtext 0 0 [45] ++
          drawtext 0 (0 + 15 * (([45] : List UInt8).count newline + 1)) [45] := by
  refine ⟨by decide +kernel,by decide +kernel,?_⟩
  rw [ne_eq,drawtext,drawtext,drawtext,drawChars_newline,List.append_right_inj,
    drawChars_space 0 _ (by decide)]
  decide +kernel

structure Colour where
  r : Nat
  g : Nat
  b : Nat
  deriving DecidableEq

def white : Colour := ⟨255, 255, 255⟩

def Putpixel.colour (p : Putpixel) : Colour := ⟨p.r, p.g, p.b⟩

/-- The colour of a pixel after the calls; `none` if none of them touches it. -/
def lastColour (x y : Int) : List Putpixel → Option Colour
  | [] => none
  | p :: rest => (lastColour x y rest).or (if p.x = x ∧ p.y = y then some p.colour else none)

theorem lastColour_append (x y : Int) (first second : List Putpixel) :
    lastColour x y (first ++ second) = (lastColour x y second).or (lastColour x y first) := by
  induction first with
  | nil => simp [lastColour]
  | cons p rest ih => rw [List.cons_append,lastColour,ih,lastColour,Option.or_assoc]

theorem lastColour_none : lastColour x y calls = none ↔ ∀ p ∈ calls, ¬(p.x = x ∧ p.y = y) := by
  induction calls with
  | nil => simp [lastColour]
  | cons p rest ih => simp [lastColour,ih,and_comm]

/-- Calls on pixels apart: each pixel keeps the colour it is given. -/
theorem lastColour_apart
    (apart : calls.Pairwise fun p q => ¬(q.x = p.x ∧ q.y = p.y)) (colour : Colour) :
    lastColour x y calls = some colour ↔ ⟨x, y, colour.r, colour.g, colour.b⟩ ∈ calls := by
  induction calls with
  | nil => simp [lastColour]
  | cons p rest ih =>
    obtain ⟨first,later⟩ := List.pairwise_cons.mp apart
    rw [lastColour,List.mem_cons]
    by_cases here : p.x = x ∧ p.y = y
    · obtain ⟨rfl,rfl⟩ := here
      have only := lastColour_none.mpr first
      have absent : ⟨p.x, p.y, colour.r, colour.g, colour.b⟩ ∉ rest :=
        fun member => first _ member ⟨rfl,rfl⟩
      rw [only,if_pos ⟨rfl,rfl⟩,Option.none_or,Option.some_inj]
      simp only [absent,or_false]
      constructor
      · rintro rfl
        rfl
      · intro same
        rw [← same]
        rfl
    · have other : ⟨x, y, colour.r, colour.g, colour.b⟩ ≠ p := by
        rintro rfl
        exact here ⟨rfl,rfl⟩
      simp only [here,↓reduceIte,Option.or_none,other,false_or]
      exact ih later

/-- The calls of a glyph go down the rows and to the right in each. -/
theorem drawGlyph_order (member : p ∈ drawGlyph x y r g b xl yl f) :
    y + yl < p.y ∨ (p.y = y + yl ∧ x + xl ≤ p.x) := by
  induction f generalizing xl yl with
  | nil => exact absurd member List.not_mem_nil
  | cons c rest ih =>
    have cell (q : Putpixel) (column : q.x = x + xl) (row : q.y = y + yl)
        (member : p ∈ q :: drawGlyph x y r g b (xl + 1) yl rest) :
        y + yl < p.y ∨ (p.y = y + yl ∧ x + xl ≤ p.x) := by
      rcases List.mem_cons.mp member with rfl | later
      · exact Or.inr ⟨row,Int.le_of_eq column.symm⟩
      · have := ih later
        omega
    unfold drawGlyph at member
    split_ifs at member
    · have := ih member
      omega
    · exact cell _ rfl rfl member
    · exact cell _ rfl rfl member
    · exact ih member

theorem drawGlyph_apart (x y : Int) (r g b : Nat) (xl yl : Int) (f : List Char) :
    (drawGlyph x y r g b xl yl f).Pairwise fun p q => ¬(q.x = p.x ∧ q.y = p.y) := by
  induction f generalizing xl yl with
  | nil => exact List.Pairwise.nil
  | cons c rest ih =>
    have behind (p : Putpixel) (column : p.x = x + xl) (row : p.y = y + yl) :
        (p :: drawGlyph x y r g b (xl + 1) yl rest).Pairwise
          fun p q => ¬(q.x = p.x ∧ q.y = p.y) := by
      refine List.pairwise_cons.mpr ⟨fun q member => ?_,ih (xl + 1) yl⟩
      have := drawGlyph_order member
      omega
    unfold drawGlyph
    split_ifs
    · exact ih 0 (yl + 1)
    · exact behind _ rfl rfl
    · exact behind _ rfl rfl
    · exact ih xl yl

def glyphRows (character : UInt8) : Option (List String) :=
  (font.find? fun entry => entry.1.toNat = character.toNat).map (·.2)

def Dot (rows : List String) (column row : Nat) : Prop :=
  ∃ line, rows[row]? = some line ∧ line.toList[column]? = some '.'

theorem glyph_rows (character : UInt8) : glyph character =
    (glyphRows character).map fun rows => rows.flatMap fun row => row.toList ++ ['\n'] := by
  rw [glyph,glyphRows,Option.map_map]
  rfl

/-- The cells of a row, in which there is nothing but '.' and blanks. -/
theorem mem_drawGlyph_row (plain : ∀ c ∈ row, c = '.' ∨ c = ' ') (rest : List Char) :
    ⟨px, py, 255, 255, 255⟩ ∈ drawGlyph x y 255 255 255 xl yl (row ++ '\n' :: rest) ↔
      (∃ column : Nat, row[column]? = some '.' ∧ px = x + xl + column ∧ py = y + yl) ∨
        ⟨px, py, 255, 255, 255⟩ ∈ drawGlyph x y 255 255 255 0 (yl + 1) rest := by
  induction row generalizing xl with
  | nil => simp [drawGlyph]
  | cons c more ih =>
    obtain ⟨cell,others⟩ := List.forall_mem_cons.mp plain
    have columns : (∃ column : Nat, (c :: more)[column]? = some '.' ∧ px = x + xl + column ∧
          py = y + yl) ↔
        (c = '.' ∧ px = x + xl ∧ py = y + yl) ∨
          ∃ column : Nat, more[column]? = some '.' ∧ px = x + (xl + 1) + column ∧ py = y + yl := by
      constructor
      · rintro ⟨column,dot,place,line⟩
        cases column with
        | zero => exact Or.inl ⟨by simpa using dot,by omega,line⟩
        | succ column => exact Or.inr ⟨column,by simpa using dot,by omega,line⟩
      · rintro (⟨rfl,place,line⟩ | ⟨column,dot,place,line⟩)
        · exact ⟨0,rfl,by omega,line⟩
        · exact ⟨column + 1,by simpa using dot,by omega,line⟩
    rw [columns,or_assoc,← ih others]
    rcases cell with rfl | rfl
    · simp [drawGlyph]
    · simp [drawGlyph]

theorem mem_drawGlyph_rows (x y yl px py : Int) (rows : List String)
    (plain : ∀ row ∈ rows, ∀ c ∈ row.toList, c = '.' ∨ c = ' ') :
    ⟨px, py, 255, 255, 255⟩ ∈ drawGlyph x y 255 255 255 0 yl
        (rows.flatMap fun row => row.toList ++ ['\n']) ↔
      ∃ column row, Dot rows column row ∧ px = x + (column : Nat) ∧ py = y + yl + (row : Nat) := by
  induction rows generalizing yl with
  | nil => simp [drawGlyph,Dot]
  | cons line more ih =>
    obtain ⟨first,others⟩ := List.forall_mem_cons.mp plain
    rw [List.flatMap_cons,List.append_assoc,List.singleton_append,mem_drawGlyph_row first,
      ih (yl + 1) others]
    constructor
    · rintro (⟨column,dot,place,row⟩ | ⟨column,row,⟨line',there,dot⟩,place,height⟩)
      · exact ⟨column,0,⟨line,rfl,dot⟩,by omega,by omega⟩
      · exact ⟨column,row + 1,⟨line',by simpa using there,dot⟩,place,by omega⟩
    · rintro ⟨column,row,⟨line',there,dot⟩,place,height⟩
      cases row with
      | zero =>
        obtain rfl : line = line' := by simpa using there
        exact Or.inl ⟨column,dot,by omega,by omega⟩
      | succ row => exact Or.inr ⟨column,row,⟨line',by simpa using there,dot⟩,place,by omega⟩

theorem font_cells : ∀ entry ∈ font, ∀ row ∈ entry.2,
    row.toList.all (fun c => c == '.' || c == ' ') = true := by decide +kernel

theorem font_plain (entry : Char × List String) (listed : entry ∈ font) (row : String)
    (member : row ∈ entry.2) : ∀ c ∈ row.toList, c = '.' ∨ c = ' ' := by
  simpa using font_cells entry listed row member

theorem font_narrow : ∀ entry ∈ font, ∀ row ∈ entry.2, '.' ∉ row.toList.drop 8 := by
  decide +kernel

theorem glyphRows_mem (found : glyphRows c = some rows) : ∃ entry ∈ font, entry.2 = rows := by
  obtain ⟨entry,first,rfl⟩ := Option.map_eq_some_iff.mp found
  exact ⟨entry,List.mem_of_find?_eq_some first,rfl⟩

theorem Dot.narrow (found : glyphRows c = some rows) (dot : Dot rows column row) : column < 8 := by
  obtain ⟨entry,listed,rfl⟩ := glyphRows_mem found
  obtain ⟨line,there,here⟩ := dot
  by_contra wide
  have dropped : (line.toList.drop 8)[column - 8]? = some '.' := by
    rw [List.getElem?_drop,← here]
    congr 1
    omega
  exact font_narrow entry listed line (List.mem_of_getElem? there) (List.mem_of_getElem? dropped)

def DotAt (x y : Int) (c : UInt8) (px py : Int) : Prop :=
  ∃ rows column row, glyphRows c = some rows ∧ Dot rows column row ∧
    px = x + (column : Nat) ∧ py = y + (row : Nat)

theorem drawchar_white (x y : Int) (c : UInt8) (px py : Int) :
    lastColour px py (drawchar x y c 255 255 255) = some white ↔ DotAt x y c px py := by
  unfold drawchar DotAt
  rw [glyph_rows]
  cases found : glyphRows c with
  | none => simp [lastColour]
  | some rows =>
    obtain ⟨entry,listed,rfl⟩ := glyphRows_mem found
    have cells := mem_drawGlyph_rows x y 0 px py entry.2 (font_plain entry listed)
    rw [Int.add_zero] at cells
    simp only [Option.map_some]
    rw [lastColour_apart (drawGlyph_apart x y 255 255 255 0 0 _) white]
    refine cells.trans ?_
    simp

/-- What is drawn from a column on leaves what lies before it. -/
theorem drawChars_before (oneLine : newline ∉ text) (before : px < x + space) :
    lastColour px py (drawChars x y space text) = none := by
  refine lastColour_none.mpr fun p member here => ?_
  have inside := drawChars_area (fun last => oneLine (List.dropLast_subset text last)) member
  omega

/-- No glyph blanks a cell of one drawn before it. -/
theorem drawChars_white (oneLine : newline ∉ text) (px py : Int) :
    lastColour px py (drawChars x y space text) = some white ↔
      ∃ i c, text[i]? = some c ∧ DotAt (x + space + 8 * (i : Nat)) y c px py := by
  induction text generalizing space with
  | nil => simp [drawChars,lastColour]
  | cons c rest ih =>
    rw [List.mem_cons,not_or] at oneLine
    have plain : c ≠ newline := fun same => oneLine.1 same.symm
    have positions : (∃ i d, (c :: rest)[i]? = some d ∧
          DotAt (x + space + 8 * (i : Nat)) y d px py) ↔
        DotAt (x + space) y c px py ∨ ∃ i d, rest[i]? = some d ∧
          DotAt (x + (space + 8) + 8 * (i : Nat)) y d px py := by
      have place (i : Nat) : x + space + 8 * ((i + 1 : Nat) : Int) = x + (space + 8) + 8 * i := by
        omega
      constructor
      · rintro ⟨i,d,there,dot⟩
        cases i with
        | zero =>
          obtain rfl : c = d := by simpa using there
          exact Or.inl (by simpa using dot)
        | succ i => exact Or.inr ⟨i,d,by simpa using there,place i ▸ dot⟩
      · rintro (dot | ⟨i,d,there,dot⟩)
        · exact ⟨0,c,rfl,by simpa using dot⟩
        · exact ⟨i + 1,d,by simpa using there,(place i).symm ▸ dot⟩
    rw [positions,← ih oneLine.2,← drawchar_white,drawChars,if_neg plain,lastColour_append]
    by_cases dot : lastColour px py (drawchar (x + space) y c 255 255 255) = some white
    · obtain ⟨rows,column,row,found,cell,place,-⟩ := (drawchar_white _ _ _ _ _).mp dot
      have narrow := cell.narrow found
      have later : lastColour px py (drawChars x y (space + 8) rest) = none :=
        drawChars_before oneLine.2 (by omega)
      simp [later,dot]
    · cases later : lastColour px py (drawChars x y (space + 8) rest) with
      | none => simp [dot]
      | some colour => simp [dot]

/-- After a text without newlines the white pixels are the cells of its characters' glyphs, each
8 columns further than the one before. -/
theorem drawtext_white (text : List UInt8) (oneLine : newline ∉ text) (x y px py : Int) :
    lastColour px py (drawtext x y text) = some white ↔
      ∃ i c, text[i]? = some c ∧ ∃ rows column row, glyphRows c = some rows ∧
        Dot rows column row ∧ px = x + 8 * (i : Nat) + (column : Nat) ∧ py = y + (row : Nat) := by
  rw [drawtext,drawChars_white oneLine,Int.add_zero]
  rfl

/-- The wide blanks of an `m` do not show in the `b` behind it. -/
theorem mb_white : lastColour 108 50 (drawtext 100 50 [109, 98]) = some white := by
  rw [drawtext_white [109, 98] (by decide) 100 50 108 50]
  exact ⟨1,98,rfl,_,0,0,rfl,⟨".     ",rfl,rfl⟩,by decide,by decide⟩

end LuaKernel.Drawing
