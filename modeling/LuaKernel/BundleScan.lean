import LuaKernel.LuaPatterns
import LuaKernel.Strings

/-! How `generate-lua-bundle.sh` takes file names from the listing of `find`. The pattern
`%a+%.lua` is not anchored and knows letters only: of a name with a digit or an underscore it
takes the letters right before the extension, and nothing if there are none. -/
namespace LuaKernel.BundleScan

open LuaPatterns Strings

def isalpha (c : UInt8) : Bool := (65 ≤ c && c ≤ 90) || (97 ≤ c && c ≤ 122)

def isdigit (c : UInt8) : Bool := 48 ≤ c && c ≤ 57

def underscore : UInt8 := 95

def isWord (c : UInt8) : Bool := isalpha c || isdigit c || c == underscore

def dot : UInt8 := 46
def newline : UInt8 := 10

def extension : Bytes := [dot, 108, 117, 97]

def pattern : List (Item UInt8) := .plus isalpha :: literal extension

structure Bundle where
  filenames : List Bytes
  modnames : List Bytes
  deriving DecidableEq

def scan (raw : Bytes) : Bundle :=
  (gmatch pattern 0 raw).foldl (fun bundle filename =>
    { filenames := bundle.filenames ++ [filename]
      modnames := bundle.modnames ++ [strSub filename 0 (-5)] }) ⟨[], []⟩

/-- The name of a file before its extension: letters, digits and underscores. -/
structure Stem where
  text : Bytes
  word : text.all isWord = true

def Stem.file (stem : Stem) : Bytes := stem.text ++ extension

/-- The names, separated by newlines; `find` ends the last with one too. -/
def listing (ended : Bool) : List Stem → Bytes
  | [] => []
  | [stem] => stem.file ++ if ended then [newline] else []
  | stem :: rest => stem.file ++ newline :: listing ended rest

def Complete (stems : List Stem) (bundle : Bundle) : Prop :=
  bundle.filenames = stems.map Stem.file ∧ bundle.modnames = stems.map Stem.text

theorem scan_filenames (raw : Bytes) : scan raw =
    ⟨gmatch pattern 0 raw, (gmatch pattern 0 raw).map (strSub · 0 (-5))⟩ := by
  have loop (names : List Bytes) (bundle : Bundle) :
      names.foldl (fun bundle filename =>
        ({ filenames := bundle.filenames ++ [filename]
           modnames := bundle.modnames ++ [strSub filename 0 (-5)] } : Bundle)) bundle =
        ⟨bundle.filenames ++ names, bundle.modnames ++ names.map (strSub · 0 (-5))⟩ := by
    induction names generalizing bundle with
    | nil => simp
    | cons name rest ih => simp [ih]
  rw [scan,loop]
  simp

/-- `filename:sub(0, -5)` takes the last four bytes off. -/
theorem strSub_extension (text : Bytes) : strSub (text ++ extension) 0 (-5) = text := by
  have last : posrelat (-5) (text ++ extension).length = text.length := by
    have length : (text ++ extension).length = text.length + 4 := List.length_append
    rw [length]
    simp only [posrelat]
    split
    · omega
    · split <;> omega
  have same : strSub (text ++ extension) 0 (-5) = strSub (text ++ extension) 0 text.length := by
    rw [strSub,strSub,last,posrelat_nonneg]
  rw [same,strSub_take,List.take_left]

/-- What is taken of one name: the letters right before the extension, and it. -/
def found : Bytes → List Bytes
  | [] => []
  | c :: rest =>
    if (c :: rest).all isalpha then [c :: rest ++ extension] else found rest

def Separated (tail : Bytes) : Prop := tail = [] ∨ ∃ rest, tail = newline :: rest

theorem literal_extension (s : Bytes) :
    matchAt (literal extension) s = if extension <+: s then some 4 else none :=
  matchAt_literal extension s

theorem apart (d : UInt8) (t : Bytes) (letter : isalpha d = true) :
    matchAt (literal extension) (d :: t) = none := by
  rw [literal_extension,if_neg]
  intro front
  have same := (List.cons_prefix_cons.mp front).1
  rw [← same] at letter
  exact absurd letter (by decide)

/-- A letter of a run that is not followed by the extension begins no match. -/
theorem run_missed (run tail : Bytes) (all : ∀ d ∈ run, isalpha d = true)
    (ends : ∀ d t, tail = d :: t → isalpha d = false ∧ d ≠ dot) (c : UInt8) :
    matchAt pattern (c :: (run ++ tail)) = none := by
  cases first : isalpha c with
  | false => exact matchAt_plus_none _ _ first
  | true =>
    rw [pattern,matchAt_plus apart c run tail first all fun d t same => (ends d t same).1,
      literal_extension,if_neg]
    · rfl
    · intro front
      cases tail with
      | nil => exact absurd front (by decide)
      | cons d t => exact (ends d t rfl).2 (List.cons_prefix_cons.mp front).1.symm

theorem gmatch_extension (tail : Bytes) (separated : Separated tail) :
    gmatch pattern 0 (extension ++ tail) = gmatch pattern 0 tail := by
  have ends : ∀ d t, tail = d :: t → isalpha d = false ∧ d ≠ dot := by
    rintro d t same
    rcases separated with rfl | ⟨rest,rfl⟩
    · contradiction
    · obtain ⟨rfl,-⟩ := List.cons.inj same
      decide
  have one := run_missed [] tail nofun ends 97
  have two := run_missed [97] tail (List.all_eq_true.mp rfl) ends 117
  have three := run_missed [117, 97] tail (List.all_eq_true.mp rfl) ends 108
  have none : matchAt pattern (dot :: [108, 117, 97] ++ tail) = none :=
    matchAt_plus_none _ _ (by decide)
  exact (gmatch_none none).trans ((gmatch_none three).trans ((gmatch_none two).trans
    (gmatch_none one)))

theorem first_other (text : Bytes) (other : text.all isalpha ≠ true) :
    ∃ run d t, text = run ++ d :: t ∧ (∀ e ∈ run, isalpha e = true) ∧ isalpha d = false := by
  induction text with
  | nil => contradiction
  | cons c rest ih =>
    cases letter : isalpha c with
    | false => exact ⟨[],c,rest,rfl,nofun,letter⟩
    | true =>
      obtain ⟨run,d,t,rfl,all,last⟩ := ih (by simpa [letter] using other)
      exact ⟨c :: run,d,t,rfl,List.forall_mem_cons.mpr ⟨letter,all⟩,last⟩

theorem letters_found (c : UInt8) (rest tail : Bytes) (first : isalpha c = true)
    (all : ∀ d ∈ rest, isalpha d = true) :
    matchAt pattern (c :: (rest ++ (extension ++ tail))) =
      some ((rest ++ extension).length + 1) := by
  have ends : ∀ d t, extension ++ tail = d :: t → isalpha d = false := by
    intro d t same
    obtain ⟨rfl,-⟩ := List.cons.inj same
    decide
  rw [pattern,matchAt_plus apart c rest (extension ++ tail) first all ends,literal_extension,
    if_pos (List.prefix_append extension tail),List.length_append]
  rfl

theorem gmatch_name (text : Bytes) (word : text.all isWord = true) (tail : Bytes)
    (separated : Separated tail) :
    gmatch pattern 0 (text ++ extension ++ tail) = found text ++ gmatch pattern 0 tail := by
  induction text with
  | nil => exact gmatch_extension tail separated
  | cons c rest ih =>
    have others : rest.all isWord = true := (Bool.and_eq_true_iff.mp word).2
    rw [found]
    split
    · rename_i letters
      obtain ⟨first,all⟩ := List.forall_mem_cons.mp (List.all_eq_true.mp letters)
      have match_ := letters_found c rest tail first all
      rw [← List.append_assoc] at match_
      exact gmatch_some pattern c (rest ++ extension) tail match_
    · rename_i other
      rw [← ih others]
      apply gmatch_none
      cases letter : isalpha c with
      | false => exact matchAt_plus_none _ _ letter
      | true =>
        obtain ⟨run,d,t,rfl,all,last⟩ := first_other rest (by simpa [letter] using other)
        have plain : d ≠ dot := by
          rintro rfl
          exact absurd (List.all_eq_true.mp others dot (by simp)) (by decide)
        have missed := run_missed run (d :: (t ++ extension ++ tail)) all
          (fun e u same => by obtain ⟨rfl,-⟩ := List.cons.inj same; exact ⟨last,plain⟩) c
        simpa using missed

theorem gmatch_newline (rest : Bytes) :
    gmatch pattern 0 (newline :: rest) = gmatch pattern 0 rest :=
  gmatch_none (matchAt_plus_none _ _ (by decide))

theorem gmatch_listing (ended : Bool) (stems : List Stem) :
    gmatch pattern 0 (listing ended stems) = stems.flatMap fun stem => found stem.text := by
  induction stems with
  | nil => rfl
  | cons stem rest ih =>
    cases rest with
    | nil =>
      have last : gmatch pattern 0 (if ended then [newline] else []) = [] := by
        cases ended <;> rfl
      have separated : Separated (if ended then [newline] else []) := by
        cases ended
        · exact Or.inl rfl
        · exact Or.inr ⟨[],rfl⟩
      rw [listing,Stem.file,gmatch_name stem.text stem.word _ separated,last]
      simp
    | cons next rest =>
      have line : listing ended (stem :: next :: rest) =
          stem.file ++ newline :: listing ended (next :: rest) := rfl
      rw [line,Stem.file,gmatch_name stem.text stem.word _ (Or.inr ⟨_,rfl⟩),gmatch_newline,ih]
      rfl

theorem found_length (text : Bytes) :
    (found text).length ≤ 1 ∧ ∀ name ∈ found text, name.length ≤ text.length + 4 := by
  induction text with
  | nil => simp [found]
  | cons c rest ih =>
    rw [found]
    split
    · simp [extension]
    · refine ⟨ih.1,fun name member => ?_⟩
      have := ih.2 name member
      rw [List.length_cons]
      omega

/-- A name is taken as it is exactly when it consists of letters. -/
theorem found_whole (text : Bytes) :
    found text = [text ++ extension] ↔ text ≠ [] ∧ ∀ c ∈ text, isalpha c = true := by
  cases text with
  | nil => simp [found]
  | cons c rest =>
    rw [found]
    split
    · rename_i letters
      exact iff_of_true rfl ⟨List.cons_ne_nil _ _,List.all_eq_true.mp letters⟩
    · rename_i other
      refine iff_of_false (fun same => ?_) fun whole => other (List.all_eq_true.mpr whole.2)
      have short := (found_length rest).2 _ (same ▸ List.mem_singleton_self _)
      simp [extension] at short

/-- Where each gives at most one, all give their own exactly when each does. -/
theorem flatMap_eq_map {f : α → List β} {g : α → β} (single : ∀ stem, (f stem).length ≤ 1)
    (stems : List α) :
    stems.flatMap f = stems.map g ↔ ∀ stem ∈ stems, f stem = [g stem] := by
  have total (stems : List α) : (stems.flatMap f).length ≤ stems.length := by
    induction stems with
    | nil => simp
    | cons stem rest ih =>
      rw [List.flatMap_cons,List.length_append,List.length_cons]
      have := single stem
      omega
  induction stems with
  | nil => simp
  | cons stem rest ih =>
    rw [List.flatMap_cons,List.map_cons,List.forall_mem_cons]
    constructor
    · intro same
      match one : f stem with
      | [] =>
        have lengths := congrArg List.length same
        have := total rest
        simp only [one,List.nil_append,List.length_cons,List.length_map] at lengths
        omega
      | [name] =>
        rw [one,List.singleton_append] at same
        obtain ⟨rfl,others⟩ := List.cons.inj same
        exact ⟨rfl,ih.mp others⟩
      | _ :: _ :: _ =>
        have := single stem
        simp [one] at this
    · rintro ⟨one,others⟩
      rw [one,ih.mpr others]
      rfl

/-- The bundle has every module of a listing under its name exactly when all names consist of
letters. -/
theorem scan_complete_iff (ended : Bool) (stems : List Stem) :
    Complete stems (scan (listing ended stems)) ↔
      ∀ stem ∈ stems, stem.text ≠ [] ∧ ∀ c ∈ stem.text, isalpha c = true := by
  have names := flatMap_eq_map (g := Stem.file) (fun stem => (found_length stem.text).1) stems
  rw [Complete,scan_filenames,gmatch_listing]
  constructor
  · rintro ⟨filenames,-⟩ stem member
    exact (found_whole stem.text).mp (names.mp filenames stem member)
  · intro letters
    have filenames := names.mpr fun stem member => (found_whole stem.text).mpr (letters stem member)
    refine ⟨filenames,?_⟩
    rw [filenames,List.map_map]
    exact List.map_congr_left fun stem _ => strSub_extension stem.text

/-- `foo_bar.lua` is taken for `bar.lua`, and `a1.lua` is left out. -/
theorem modules_lost : ∃ fooBar a1 : Stem,
    fooBar.text = [102, 111, 111, 95, 98, 97, 114] ∧ a1.text = [97, 49] ∧
      scan (listing true [fooBar, a1]) = ⟨[[98, 97, 114] ++ extension], [[98, 97, 114]]⟩ ∧
      ¬Complete [fooBar, a1] (scan (listing true [fooBar, a1])) := by
  refine ⟨⟨[102, 111, 111, 95, 98, 97, 114],by decide⟩,⟨[97, 49],by decide⟩,rfl,rfl,
    by decide +kernel,?_⟩
  rintro ⟨filenames,-⟩
  exact absurd filenames (by decide +kernel)

end LuaKernel.BundleScan
