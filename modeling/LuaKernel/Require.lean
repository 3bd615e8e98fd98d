import Mathlib.Data.List.Induction
import Mathlib.Data.List.Nodup
import Mathlib.Data.List.TakeWhile
import LuaKernel.Bytes

/-! Modules. `require` asks the searchers for a loader; the kernel puts `lua_loader` in the
second place, which looks a name up in the bundle linked to the kernel. It compares as many
bytes as the name has and keeps the last entry that agrees. -/
namespace LuaKernel.Require

open Bytes

inductive Value
  | nil
  | boolean (b : Bool)
  | other (id : Nat)
  deriving DecidableEq

def Value.toBoolean : Value → Bool
  | .nil => false
  | .boolean b => b
  | .other _ => true

/-- An entry of `lua_bundle`: where its name is stored, and what is there. -/
structure Module where
  address : Nat
  name : List UInt8
  source : List UInt8
  deriving DecidableEq

/-- A bundle in memory. Its names are string literals, so they end with a zero byte and have no
other. -/
structure Bundle (m : Memory) where
  modules : List Module
  stored : ∀ entry ∈ modules, Holds m entry.address (entry.name ++ [0])
  literal : ∀ entry ∈ modules, 0 ∉ entry.name
  distinct : (modules.map Module.name).Nodup

structure Package where
  loaded : List UInt8 → Value
  preload : List UInt8 → Value

inductive Found
  | preloaded (loader : Value)
  | kernel
  | message

/-- `package.searchers`, with what follows the second. -/
def searchers (package : Package) (others : List (List UInt8 → Found)) :
    List (List UInt8 → Found) :=
  (fun name =>
      if package.preload name = .nil then .message else .preloaded (package.preload name)) ::
    (fun _ => .kernel) :: others

/-- The first loader a searcher returns; `none` is the error that the module is not found. -/
def findloader (name : List UInt8) : List (List UInt8 → Found) → Option Found
  | [] => none
  | searcher :: rest =>
    match searcher name with
    | .message => findloader name rest
    | found => some found

def memcmp (m : Memory) (s : List UInt8) (p : Nat) : Bool := copy m p s.length == s

def search (m : Memory) (modname : List UInt8) (modules : List Module) : Option Module :=
  modules.foldl (fun mod entry => if memcmp m modname entry.address then some entry else mod) none

/-- The modules whose source was run, the value returned (`none` is an error), and the tables
after it. -/
structure Result where
  ran : List Module
  value : Option Value
  package : Package

/-- `run` is what a source leaves on the stack and what it does to the tables; `call` is a
preloaded loader. -/
structure Environment where
  run : List UInt8 → Package → Value × Package
  call : Value → Package → Option Value × Package

def cstring (s : List UInt8) : List UInt8 := s.takeWhile (· ≠ 0)

def luaLoader (m : Memory) (environment : Environment) (modules : List Module)
    (modname : List UInt8) (package : Package) : Result :=
  match search m modname modules with
  | none => ⟨[], some .nil, package⟩
  | some mod =>
    let (value, package) := environment.run mod.source package
    ⟨[mod], some value, package⟩

/-- What `ll_require` does with the value of a loader. -/
def store (name : List UInt8) (result : Result) : Result :=
  match result.value with
  | none => result
  | some value =>
    let loaded := if value ≠ .nil then Function.update result.package.loaded name value
      else result.package.loaded
    let loaded := if loaded name = .nil then Function.update loaded name (.boolean true) else loaded
    { result with value := some (loaded name), package := { result.package with loaded := loaded } }

def require (m : Memory) (environment : Environment) (others : List (List UInt8 → Found))
    (modules : List Module) (argument : List UInt8) (package : Package) : Result :=
  let name := cstring argument
  if (package.loaded name).toBoolean then ⟨[], some (package.loaded name), package⟩ else
  match findloader name (searchers package others) with
  | none => ⟨[], none, package⟩
  | some (.preloaded loader) =>
    let (value, package) := environment.call loader package
    store name ⟨[], value, package⟩
  | some _ => store name (luaLoader m environment modules name package)

/-- The module of that name is run and no other, and without one there is an error. -/
structure Exact (modules : List Module) (argument : List UInt8) (result : Result) : Prop where
  present : ∀ entry ∈ modules, entry.name = argument → result.ran = [entry]
  absent : (∀ entry ∈ modules, entry.name ≠ argument) → result.ran = [] ∧ result.value = none

/-- The name is that of a module, and no later module's name starts with it. -/
def Unshadowed (modules : List Module) (argument : List UInt8) : Prop :=
  ∃ before entry after, modules = before ++ entry :: after ∧ entry.name = argument ∧
    ∀ later ∈ after, ¬argument <+: later.name

theorem memcmp_iff (stored : Holds m address (name ++ [0])) (plain : 0 ∉ modname) :
    memcmp m modname address = true ↔ modname <+: name := by
  have image := copy_holds stored
  rw [memcmp,beq_iff_eq]
  constructor
  · intro same
    by_cases short : modname.length ≤ (name ++ [0]).length
    · have part : modname <+: name ++ [0] := by
        rw [← same,← image,← Nat.min_eq_left short,← copy_take]
        exact List.take_prefix _ _
      rcases List.prefix_concat_iff.mp part with rfl | part
      · simp at plain
      · exact part
    · have part : name ++ [0] <+: modname := by
        rw [← same,← image,← Nat.min_eq_left (Nat.le_of_not_le short),← copy_take]
        exact List.take_prefix _ _
      exact absurd (part.subset (by simp)) plain
  · rintro ⟨rest,rfl⟩
    rw [List.append_assoc] at stored
    exact copy_holds (holds_append.mp stored).1

theorem search_concat (m : Memory) (modname : List UInt8) (modules : List Module)
    (entry : Module) : search m modname (modules ++ [entry]) =
      if memcmp m modname entry.address then some entry else search m modname modules := by
  simp [search]

theorem search_some (found : search m modname modules = some mod) :
    ∃ before after, modules = before ++ mod :: after ∧ memcmp m modname mod.address = true ∧
      ∀ later ∈ after, memcmp m modname later.address = false := by
  induction modules using List.reverseRecOn with
  | nil => simp [search] at found
  | append_singleton modules entry ih =>
    rw [search_concat] at found
    split_ifs at found with agrees
    · obtain rfl := Option.some.inj found
      exact ⟨modules,[],rfl,agrees,nofun⟩
    · obtain ⟨before,after,rfl,here,none_⟩ := ih found
      refine ⟨before,after ++ [entry],by simp,here,fun later member => ?_⟩
      rcases List.mem_append.mp member with member | member
      · exact none_ later member
      · rw [List.mem_singleton.mp member]
        exact Bool.eq_false_iff.mpr agrees

theorem search_last (before after : List Module) (here : memcmp m modname mod.address = true)
    (none_ : ∀ later ∈ after, memcmp m modname later.address = false) :
    search m modname (before ++ mod :: after) = some mod := by
  induction after using List.reverseRecOn with
  | nil => rw [search_concat,if_pos here]
  | append_singleton after entry ih =>
    rw [← List.cons_append,← List.append_assoc,search_concat,none_ entry (by simp)]
    exact ih fun later member => none_ later (by simp [member])

theorem store_ran (name : List UInt8) (result : Result) : (store name result).ran = result.ran := by
  unfold store
  split <;> rfl

theorem store_value (name : List UInt8) (result : Result) (returned : result.value ≠ none) :
    (store name result).value ≠ none := by
  unfold store
  split
  · assumption
  · simp

variable {m : Memory} {environment : Environment} {others : List (List UInt8 → Found)}
variable {modules : List Module} {package : Package}

/-- The second searcher always returns a loader. -/
theorem findloader_kernel (fresh : package.preload name = .nil) :
    findloader name (searchers package others) = some .kernel := by
  simp [findloader,searchers,fresh]

/-- Never an error: a module that is not there is `true`. -/
theorem require_value (fresh : package.preload (cstring argument) = .nil) :
    (require m environment others modules argument package).value ≠ none := by
  simp only [require,findloader_kernel fresh]
  split_ifs
  · simp
  · refine store_value _ _ ?_
    unfold luaLoader
    split <;> simp

theorem require_ran (unloaded : package.loaded (cstring argument) = .nil)
    (fresh : package.preload (cstring argument) = .nil) :
    (require m environment others modules argument package).ran =
      (search m (cstring argument) modules).toList := by
  simp only [require,findloader_kernel fresh,unloaded,Value.toBoolean,Bool.false_eq_true,
    ↓reduceIte,store_ran]
  unfold luaLoader
  split <;> simp_all

theorem cstring_eq (plain : 0 ∉ argument) : cstring argument = argument := by
  rw [cstring,List.takeWhile_eq_self_iff]
  intro byte member
  simpa using fun zero : byte = 0 => plain (zero ▸ member)

/-- `require` of a name that is not loaded and not preloaded is exact if and only if a module
has that name and no later one's starts with it. -/
theorem require_exact_iff (m : Memory) (bundle : Bundle m) (environment : Environment)
    (others : List (List UInt8 → Found)) (package : Package) (argument : List UInt8)
    (unloaded : package.loaded argument = .nil)
    (fresh : package.preload (cstring argument) = .nil) :
    Exact bundle.modules argument
        (require m environment others bundle.modules argument package) ↔
      Unshadowed bundle.modules argument := by
  have shadows (plain : 0 ∉ argument) (entry : Module) (member : entry ∈ bundle.modules) :
      memcmp m argument entry.address = true ↔ argument <+: entry.name :=
    memcmp_iff (bundle.stored entry member) plain
  have ran (plain : 0 ∉ argument) :
      (require m environment others bundle.modules argument package).ran =
        (search m argument bundle.modules).toList := by
    have same := cstring_eq plain
    have both : (require m environment others bundle.modules argument package).ran =
        (search m (cstring argument) bundle.modules).toList :=
      require_ran (by rw [same]; exact unloaded) fresh
    rwa [same] at both
  constructor
  · intro exact_
    by_cases present : ∃ entry ∈ bundle.modules, entry.name = argument
    · obtain ⟨entry,member,name⟩ := present
      have plain : 0 ∉ argument := name ▸ bundle.literal entry member
      have found : search m argument bundle.modules = some entry := by
        have only := exact_.present entry member name
        rw [ran plain] at only
        exact Option.toList_eq_singleton_iff.mp only
      obtain ⟨before,after,split,-,none_⟩ := search_some found
      refine ⟨before,entry,after,split,name,fun later member shadow => ?_⟩
      have agrees := (shadows plain later (by simp [split,member])).mpr shadow
      exact absurd agrees (by simp [none_ later member])
    · exact absurd (exact_.absent (by simpa using present)).2 (require_value fresh)
  · rintro ⟨before,entry,after,split,name,unshadowed⟩
    have member : entry ∈ bundle.modules := by simp [split]
    have plain : 0 ∉ argument := name ▸ bundle.literal entry member
    have found : search m argument bundle.modules = some entry := by
      rw [split]
      refine search_last before after ?_ fun later inside => ?_
      · exact (shadows plain entry member).mpr (name ▸ List.prefix_refl _)
      · rw [Bool.eq_false_iff,ne_eq,shadows plain later (by simp [split,inside])]
        exact unshadowed later inside
    refine ⟨fun other inside same => ?_,fun absent => absurd name (absent entry member)⟩
    have one : other = entry :=
      List.inj_on_of_nodup_map bundle.distinct inside member (same.trans name.symm)
    rw [ran plain,found,one]
    rfl

def font : List UInt8 := [102, 111, 110, 116]
def luakernel : List UInt8 := [108, 117, 97, 107, 101, 114, 110, 101, 108]

def memory : Memory := image 0 ((font ++ [0]) ++ (luakernel ++ [0]))

def kernelBundle : Bundle memory where
  modules := [⟨0, font, []⟩, ⟨5, luakernel, []⟩]
  stored := by
    have both := holds_append.mp (image_holds 0 ((font ++ [0]) ++ (luakernel ++ [0])))
    exact List.forall_mem_cons.mpr ⟨both.1,List.forall_mem_singleton.mpr both.2⟩
  literal := by decide
  distinct := by decide

def tables : Environment := ⟨fun _ package => (.other 0, package), fun _ package => (none, package)⟩

def nothing : Package := ⟨fun _ => .nil, fun _ => .nil⟩

theorem font_exact : Exact kernelBundle.modules font
    (require memory tables [] kernelBundle.modules font nothing) :=
  (require_exact_iff memory kernelBundle tables [] nothing font rfl rfl).mpr
    ⟨[],_,_,rfl,rfl,by decide⟩

/-- `require("lua")` runs the kernel, `require("")` too, and `require("x")` returns `true`. -/
theorem inexact_names :
    (require memory tables [] kernelBundle.modules [108, 117, 97] nothing).ran =
        [⟨5, luakernel, []⟩] ∧
      (require memory tables [] kernelBundle.modules [] nothing).ran = [⟨5, luakernel, []⟩] ∧
      (require memory tables [] kernelBundle.modules [120] nothing).value =
        some (.boolean true) ∧
      ¬Exact kernelBundle.modules [108, 117, 97]
        (require memory tables [] kernelBundle.modules [108, 117, 97] nothing) := by
  refine ⟨by decide,by decide,by decide,fun exact_ => ?_⟩
  exact absurd (exact_.absent (by decide)).2 (by decide)

end LuaKernel.Require
