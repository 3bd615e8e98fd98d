import LuaKernel.Terminal

/-! `font.lua`. A glyph is given by its rows: the source's string has a newline after each. -/
namespace LuaKernel.Font

def font : List (Char × List String) := [
  (' ', ["   ", "   ", "   ", "   ", "   ", "   ", "   ", "   ", "   ", "   "]),
  ('a', ["      ", "      ", "      ", " .... ", "     .", " .....", ".    .", ".    .", ".    .",
    " ....."]),
  ('b', [".     ", ".     ", ".     ", "..... ", ".    .", ".    .", ".    .", ".    .", ".    .",
    "..... "]),
  ('c', ["      ", "      ", "      ", " .... ", ".    .", ".     ", ".     ", ".     ", ".    .",
    " .... "]),
  ('d', ["       ", "     .", "     .", " .....", ".    .", ".    .", ".    .", ".    .",
    ".    .", " ....."]),
  ('e', ["      ", "      ", "      ", " .... ", ".    .", ".    .", "......", ".     ", ".     ",
    " .... "]),
  ('f', ["   ... ", "  .   ", "  .   ", "......", "  .   ", "  .   ", "  .   ", "  .   ",
    "  .   ", "  .   "]),
  ('g', ["      ", "      ", "      ", " .....", ".    .", ".    .", ".    .", ".    .", ".    .",
    " .....", "     .", " ...."]),
  ('h', [".      ", ".     ", ".     ", "..... ", ".    .", ".    .", ".    .", ".    .",
    ".    .", ".    ."]),
  ('i', ["  . ", "  . ", "    ", " .. ", "  . ", "  . ", "  . ", "  . ", "  . ", " ..."]),
  ('j', ["    .", "    .", "     ", "   ..", "    .", "    .", "    .", "    .", ".   .", ".   .",
    " ... "]),
  ('k', [".     ", ".     ", ".     ", ".    .", ".   . ", ".  .  ", "...  ", ".  .  ", ".   . ",
    ".    ."]),
  ('l', [" .. ", "  . ", "  . ", "  . ", "  . ", "  . ", "  . ", "  . ", "  . ", " ..."]),
  ('m', ["          ", "          ", "          ", "......    ", ".  .  .   ", ".  .  .   ",
    ".  .  .   ", ".  .  .   ", ".  .  .   ", ".  .  .   "]),
  ('n', ["       ", "       ", "       ", ".....  ", ".    . ", ".    . ", ".    . ", ".    . ",
    ".    . ", ".    . "]),
  ('o', ["      ", "      ", "      ", " ....", ".    .", ".    .", ".    .", ".    .", ".    .",
    " .... "]),
  ('p', ["      ", "      ", "      ", "..... ", ".    .", ".    .", ".    .", ".    .", "..... ",
    ".     ", ".     ", ".     "]),
  ('q', ["      ", "      ", "      ", " .....", ".    .", ".    .", ".    .", ".    .", ".    .",
    " .....", "     .", "     ."]),
  ('r', ["      ", "      ", "      ", ". ....", "..    ", ".     ", ".     ", ".     ", ".     ",
    ".     "]),
  ('s', ["      ", "      ", "      ", " .....", ".     ", ".     ", " .... ", "     .", "     .",
    "..... "]),
  ('t', ["  .   ", "  .   ", "  .   ", "..... ", "  .   ", "  .   ", "  .   ", "  .   ", "  .   ",
    "   ..."]),
  ('u', ["      ", "      ", "      ", ".    .", ".    .", ".    .", ".    .", ".    .", ".    .",
    " ....."]),
  ('v', ["      ", "      ", "      ", ".    .", ".    .", ".    .", " .  . ", " .  . ", "  ..  ",
    "  ..  "]),
  ('w', ["      ", "      ", "      ", ".     .", ".     .", ".  .  .", ".  .  .", ".  .  .",
    ".  .  .", " ....."]),
  ('x', ["      ", "      ", "      ", ".    .", ".    .", " .  . ", "  ..  ", " .  . ", ".    .",
    ".    ."]),
  ('y', ["      ", "      ", "      ", ".    .", ".    .", ".    .", ".    .", ".    .", ".    .",
    " .....", "     .", " .... "]),
  ('z', ["      ", "      ", "      ", "......", "    . ", "   .  ", "  .   ", " .    ", ".     ",
    "......", "      "]),
  ('0', [" .... ", ".    .", ".    .", ".   ..", ".  . .", ". .  .", "..   .", ".    .", ".    .",
    " .... ", "      ", "      ", "      "]),
  ('1', ["  .   ", " ..   ", ". .   ", "  .   ", "  .   ", "  .   ", "  .   ", "  .   ", "  .   ",
    "..... ", "      ", "      ", "      "]),
  ('2', [" .... ", ".    .", ".    .", "     .", "    . ", "   .  ", "  .   ", " .    ", ".     ",
    "......", "      ", "      ", "      "]),
  ('3', [" .... ", ".    .", ".    .", "     .", "  ... ", "     .", "     .", ".    .", ".    .",
    " ....", "      ", "      ", "      "]),
  ('4', ["     .", "    ..", "   . .", "  .  .", " .   .", ".    .", "......", "     .", "     .",
    "     .", "      ", "      ", "      "]),
  ('5', ["......", ".     ", ".     ", ".     ", "..... ", "     .", "     .", "     .", ".    .",
    " .... ", "      ", "      ", "      "]),
  ('6', ["  ... ", " .    ", ".     ", ".     ", "..... ", ".    .", ".    .", ".    .", ".    .",
    " .... ", "      ", "      ", "      "]),
  ('7', ["......", "     .", "     .", "    . ", "    . ", "   .  ", "   .  ", "  .   ", "  .   ",
    "  .   ", "      ", "      ", "      "]),
  ('8', [" .... ", ".    .", ".    .", ".    .", " .... ", ".    .", ".    .", ".    .", ".    .",
    " .... ", "      ", "      ", "      "]),
  ('9', [" .... ", ".    .", ".    .", ".    .", ".    .", " .....", "     .", "     .", "    . ",
    " ...  ", "      ", "      ", "      "]),
  ('<', ["      ", "      ", "      ", "     .", "    . ", "   .  ", "  .   ", " .    ", "  .   ",
    "   .  ", "    . ", "     ."]),
  ('>', ["      ", "      ", "      ", " .    ", "  .   ", "   .  ", "    . ", "     .", "    . ",
    "   .  ", "  .   ", " .    "]),
  ('(', ["  . ", " .  ", ".   ", ".   ", ".   ", ".   ", ".   ", ".   ", " .  ", "  . ", "    ",
    "    "]),
  (')', [" .  ", "  . ", "   .", "   .", "   .", "   .", "   .", "   .", "  . ", " .  ", "    ",
    "    "]),
  ('\x27', ["      ", "  .   ", "  .   ", "  .   ", "      ", "      ", "      ", "      ",
    "      ", "      ", "      ", "      "]),
  ('\x22', ["    ", ".  . ", ".  . ", ".  . ", "    ", "    ", "    ", "    ", "    ", "    ",
    "    ", "    "]),
  ('=', ["      ", "      ", "      ", "      ", "      ", "......", "      ", "      ", "......",
    "      ", "      ", "      "]),
  (':', ["      ", "      ", "      ", "  .   ", "  .   ", "      ", "      ", "  .   ", "  .   ",
    "      ", "      "]),
  (',', ["      ", "      ", "      ", "      ", "      ", "      ", "      ", "      ", "      ",
    "  .   ", "  .   ", " .    ", "      "]),
  ('.', ["      ", "      ", "      ", "      ", "      ", "      ", "      ", "      ", "      ",
    "  .   ", "  .   ", "      ", "      "]),
  ('[', ["... ", ".   ", ".   ", ".   ", ".   ", ".   ", ".   ", ".   ", ".   ", "... ", "    ",
    "    "]),
  (']', [" ...", "   .", "   .", "   .", "   .", "   .", "   .", "   .", "   .", " ...", "    ",
    "    "]),
  ('\x7b', ["  .. ", " .   ", " .   ", " .   ", ".    ", " .   ", " .   ", " .   ", " .   ",
    "  .. ", "    ", "    "]),
  ('\x7d', [".. ", "  .", "  .", "  .", "   .", "  .", "  .", "  .", "  .", ".. ", "    ",
    "    "]),
  ('+', ["   ", "   ", "   ", "     .", "     .", "   .....", "     .", "     .", "   ", "   ",
    "   ", "    "]),
  ('-', ["   ", "   ", "      ", "      ", "      ", "......", "      ", "      ", "   ", "   ",
    "   ", "    "]),
  ('_', ["      ", "      ", "      ", "      ", "      ", "      ", "      ", "      ", "      ",
    "      ", "......", "", "      "])]

/-- `font[character]`; `none` is `nil`. -/
def glyph (character : UInt8) : Option (List Char) :=
  (font.find? fun entry => entry.1.toNat = character.toNat).map fun entry =>
    entry.2.flatMap fun row => row.toList ++ ['\n']

theorem glyph_mem (found : glyph character = some f) :
    ∃ entry ∈ font, entry.2.flatMap (fun row => row.toList ++ ['\n']) = f := by
  obtain ⟨entry,first,rfl⟩ := Option.map_eq_some_iff.mp found
  exact ⟨entry,List.mem_of_find?_eq_some first,rfl⟩

theorem glyph_newline : glyph Terminal.newline = none := by decide +kernel

end LuaKernel.Font
