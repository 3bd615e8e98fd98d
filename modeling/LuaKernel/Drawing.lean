import LuaKernel.Font

/-! The drawing functions of `luakernel.lua`, by the calls of `putpixel` they make, in order. -/
namespace LuaKernel.Drawing

open Font
open Terminal (newline)

structure Putpixel where
  x : Int
  y : Int
  r : Nat
  g : Nat
  b : Nat
  deriving DecidableEq

/-- The loop of `hline` and `vline`; a line of one pixel is not drawn. -/
def span (first last : Int) (pixel : Int → Putpixel) : List Putpixel :=
  if last > first then (List.range (last - first + 1).toNat).map fun (i : Nat) => pixel (first + i)
  else []

def hline (x1 y x2 : Int) (r g b : Nat) : List Putpixel := span x1 x2 fun x => ⟨x, y, r, g, b⟩

def vline (x y1 y2 : Int) (r g b : Nat) : List Putpixel := span y1 y2 fun y => ⟨x, y, r, g, b⟩

def rectangle (x y width height : Int) (r g b : Nat) : List Putpixel :=
  hline x y (x + width) r g b ++ hline x (y + height) (x + width) r g b ++
    vline x y (y + height) r g b ++ vline (x + width) y (y + height) r g b

/-- The loop of `drawchar` over the glyph's string. -/
def drawGlyph (x y : Int) (r g b : Nat) (xl yl : Int) : List Char → List Putpixel
  | [] => []
  | c :: rest =>
    if c = '\n' then drawGlyph x y r g b 0 (yl + 1) rest
    else if c = '.' then ⟨x + xl, y + yl, r, g, b⟩ :: drawGlyph x y r g b (xl + 1) yl rest
    else if c = ' ' then ⟨x + xl, y + yl, 0, 0, 0⟩ :: drawGlyph x y r g b (xl + 1) yl rest
    else drawGlyph x y r g b xl yl rest

def drawchar (x y : Int) (character : UInt8) (r g b : Nat) : List Putpixel :=
  match glyph character with
  | some f => drawGlyph x y r g b 0 0 f
  | none => []

/-- The loop of `drawtext`. A newline is given to `drawchar` too, and moves the next character to
the right like any other. -/
def drawChars (x y space : Int) : List UInt8 → List Putpixel
  | [] => []
  | c :: rest =>
    let (space, y) := if c = newline then (0, y + 15) else (space, y)
    drawchar (x + space) y c 255 255 255 ++ drawChars x y (space + 8) rest

def drawtext (x y : Int) (text : List UInt8) : List Putpixel := drawChars x y 0 text

theorem mem_span : p ∈ span first last pixel ↔
    first < last ∧ ∃ i, first ≤ i ∧ i ≤ last ∧ pixel i = p := by
  unfold span
  split_ifs with some_
  · rw [List.mem_map]
    constructor
    · rintro ⟨i,inside,rfl⟩
      have := List.mem_range.mp inside
      exact ⟨some_,first + i,by omega,by omega,rfl⟩
    · rintro ⟨-,i,low,high,rfl⟩
      refine ⟨(i - first).toNat,List.mem_range.mpr (by omega),?_⟩
      rw [Int.toNat_of_nonneg (by omega),show first + (i - first) = i by omega]
  · exact iff_of_false List.not_mem_nil fun drawn => some_ drawn.1

theorem rectangle_area (wide : 0 ≤ width) (high : 0 ≤ height)
    (member : p ∈ rectangle x y width height r g b) :
    (x ≤ p.x ∧ p.x ≤ x + width) ∧ y ≤ p.y ∧ p.y ≤ y + height := by
  simp only [rectangle,List.mem_append] at member
  rcases member with ((top | bottom) | left) | right
  · obtain ⟨-,i,low,high,rfl⟩ := mem_span.mp top
    exact ⟨⟨low,high⟩,by dsimp only; omega⟩
  · obtain ⟨-,i,low,high,rfl⟩ := mem_span.mp bottom
    exact ⟨⟨low,high⟩,by dsimp only; omega⟩
  · obtain ⟨-,i,low,high,rfl⟩ := mem_span.mp left
    exact ⟨by dsimp only; omega,low,high⟩
  · obtain ⟨-,i,low,high,rfl⟩ := mem_span.mp right
    exact ⟨by dsimp only; omega,low,high⟩

theorem rectangle_bottom (high : 0 < height) :
    ⟨x, y + height, r, g, b⟩ ∈ rectangle x y width height r g b := by
  simp only [rectangle,List.mem_append]
  refine Or.inl (Or.inr (mem_span.mpr ⟨by omega,y + height,by omega,by omega,rfl⟩))

def shift (x y : Int) (p : Putpixel) : Putpixel := { p with x := x + p.x, y := y + p.y }

theorem drawGlyph_shift (x y : Int) (r g b : Nat) (xl yl : Int) (f : List Char) :
    drawGlyph x y r g b xl yl f = (drawGlyph 0 0 r g b xl yl f).map (shift x y) := by
  induction f generalizing xl yl with
  | nil => rfl
  | cons c rest ih =>
    unfold drawGlyph
    split_ifs <;> simp [ih,shift]

/-- A glyph has at most ten columns and thirteen rows. -/
theorem font_size : ∀ entry ∈ font,
    ∀ p ∈ drawGlyph 0 0 255 255 255 0 0 (entry.2.flatMap fun row => row.toList ++ ['\n']),
      (0 ≤ p.x ∧ p.x ≤ 9) ∧ 0 ≤ p.y ∧ p.y ≤ 12 := by decide +kernel

theorem drawchar_area (member : p ∈ drawchar x y c 255 255 255) :
    (x ≤ p.x ∧ p.x ≤ x + 9) ∧ y ≤ p.y ∧ p.y ≤ y + 12 := by
  unfold drawchar at member
  cases found : glyph c with
  | none =>
    rw [found] at member
    exact absurd member List.not_mem_nil
  | some f =>
    rw [found] at member
    obtain ⟨entry,listed,rfl⟩ := glyph_mem found
    dsimp only at member
    rw [drawGlyph_shift] at member
    obtain ⟨q,inside,rfl⟩ := List.mem_map.mp member
    have := font_size entry listed q inside
    simp only [shift]
    omega

theorem drawchar_newline (x y : Int) (r g b : Nat) : drawchar x y newline r g b = [] := by
  rw [drawchar,glyph_newline]

/-- A text whose only newline is its last character is drawn on one line. -/
theorem drawChars_area (oneLine : newline ∉ text.dropLast) (member : p ∈ drawChars x y space text) :
    (x + space ≤ p.x ∧ p.x ≤ x + space + 8 * ((text.length - 1 : Nat) : Int) + 9) ∧
      y ≤ p.y ∧ p.y ≤ y + 12 := by
  induction text generalizing space with
  | nil => exact absurd member List.not_mem_nil
  | cons c rest ih =>
    cases rest with
    | nil =>
      by_cases last : c = newline
      · subst last
        simp [drawChars,drawchar_newline] at member
      · simp only [drawChars,last,↓reduceIte,List.append_nil] at member
        have := drawchar_area member
        simp only [List.length_singleton]
        omega
    | cons next rest =>
      rw [List.dropLast_cons_of_ne_nil (List.cons_ne_nil _ _),List.mem_cons,not_or] at oneLine
      have plain : c ≠ newline := fun same => oneLine.1 same.symm
      rw [drawChars,if_neg plain] at member
      simp only [List.length_cons,Nat.add_sub_cancel] at ih ⊢
      rcases List.mem_append.mp member with here | later
      · have := drawchar_area here
        omega
      · have := ih oneLine.2 later
        omega

theorem drawtext_area (oneLine : newline ∉ text.dropLast) (member : p ∈ drawtext x y text) :
    (x ≤ p.x ∧ p.x ≤ x + 8 * ((text.length - 1 : Nat) : Int) + 9) ∧ y ≤ p.y ∧ p.y ≤ y + 12 := by
  have := drawChars_area oneLine member
  omega

end LuaKernel.Drawing
