import Mathlib.Logic.Function.Basic

/-! References to values of a table, as Lua's auxiliary library hands them out. Released slots
form a list that is threaded through the table itself: slot 0 holds the first of them, each
holds the next, and a slot that reads as 0 ends it. -/
namespace LuaKernel.References

theorem update_slot {V : Type} (t : Int → V) (key : Int) (value : V) (slot : Int) :
    Function.update t key value slot = value ∨ Function.update t key value slot = t slot := by
  by_cases here : slot = key
  · exact Or.inl (by rw [here,Function.update_self])
  · exact Or.inr (Function.update_of_ne here _ _)

class LuaValue (V : Type) where
  isNil : V → Bool
  pushInteger : Int → V
  toInteger : V → Int
  toInteger_push : toInteger (pushInteger n) = n

export LuaValue (isNil pushInteger toInteger)

variable {V : Type} [LuaValue V]

def LUA_REFNIL : Int := -1

/-- `luaL_ref` where `lua_rawlen` gives `len`: the reference and the table after it. -/
def luaLRef (t : Int → V) (value : V) (len : Nat) : Int × (Int → V) :=
  if isNil value then (LUA_REFNIL, t) else
  let ref := toInteger (t 0)
  if ref ≠ 0 then (ref, Function.update (Function.update t 0 (t ref)) ref value)
  else ((len : Int) + 1, Function.update t ((len : Int) + 1) value)

def luaLUnref (t : Int → V) (ref : Int) : Int → V :=
  if 0 ≤ ref then Function.update (Function.update t ref (t 0)) 0 (pushInteger ref) else t

/-- A slot holds the value referred to, or what some slot held before. -/
theorem luaLRef_slot (t : Int → V) (value : V) (len : Nat) (slot : Int) :
    (luaLRef t value len).2 slot = value ∨ ∃ key, (luaLRef t value len).2 slot = t key := by
  simp only [luaLRef]
  split
  · exact Or.inr ⟨slot,rfl⟩
  · split
    · refine (update_slot _ _ value slot).imp_right fun older => ?_
      rcases update_slot t 0 (t (toInteger (t 0))) slot with head | same
      · exact ⟨_,older.trans head⟩
      · exact ⟨_,older.trans same⟩
    · exact (update_slot _ _ value slot).imp_right fun same => ⟨_,same⟩

theorem luaLRef_stores (t : Int → V) (len : Nat) (some_ : isNil value = false) :
    (luaLRef t value len).2 (luaLRef t value len).1 = value := by
  simp only [luaLRef,some_,Bool.false_eq_true,↓reduceIte]
  split <;> exact Function.update_self _ _ _

theorem luaLUnref_slot (t : Int → V) (ref slot : Int) :
    luaLUnref t ref slot = pushInteger ref ∨ ∃ key, luaLUnref t ref slot = t key := by
  rw [luaLUnref]
  split
  · refine (update_slot _ 0 (pushInteger ref) slot).imp_right fun older => ?_
    rcases update_slot t ref (t 0) slot with head | same
    · exact ⟨_,older.trans head⟩
    · exact ⟨_,older.trans same⟩
  · exact Or.inr ⟨slot,rfl⟩

/-- What `lua_rawlen` may give for a table with holes. -/
def Border (t : Int → V) (len : Nat) : Prop :=
  (len = 0 ∨ isNil (t len) = false) ∧ isNil (t ((len : Int) + 1)) = true

instance Border.decidable (t : Int → V) (len : Nat) : Decidable (Border t len) := by
  unfold Border
  infer_instance

/-- `free` are the slots of the list that starts at `slot`. -/
def Chain (t : Int → V) : Int → List Int → Prop
  | slot, [] => toInteger (t slot) = 0
  | slot, ref :: rest => toInteger (t slot) = ref ∧ Chain t ref rest

/-- A change of other slots leaves the list as it is. -/
theorem Chain.congr {t u : Int → V} (chain : Chain t slot free)
    (same : ∀ key ∈ slot :: free, u key = t key) : Chain u slot free := by
  induction free generalizing slot with
  | nil => simpa [Chain,same slot] using chain
  | cons ref rest ih =>
    refine ⟨by rw [same slot (by simp)]; exact chain.1,ih chain.2 ?_⟩
    exact fun key member => same key (List.mem_cons_of_mem _ member)

/-- The slots of the free list and those in use are positive and apart, and a slot in use
holds something. -/
structure Owned (t : Int → V) (free live : List Int) : Prop where
  chain : Chain t 0 free
  nodup : free.Nodup
  positive : ∀ ref ∈ free, 0 < ref
  apart : ∀ ref ∈ free, ref ∉ live
  inUse : ∀ ref ∈ live, 0 < ref ∧ isNil (t ref) = false

theorem Owned.mono {t : Int → V} (owned : Owned t free live) (fewer : live' ⊆ live) :
    Owned t free live' where
  chain := owned.chain
  nodup := owned.nodup
  positive := owned.positive
  apart ref member := fun used => owned.apart ref member (fewer used)
  inUse ref member := owned.inUse ref (fewer member)

theorem Owned.pop {t : Int → V} {value : V} (owned : Owned t (ref :: free) live)
    (some_ : isNil value = false) :
    Owned (Function.update (Function.update t 0 (t ref)) ref value) free (ref :: live) := by
  have positive := owned.positive ref (by simp)
  obtain ⟨fresh,nodup⟩ := List.nodup_cons.mp owned.nodup
  have apart := owned.apart ref (by simp)
  constructor
  · have tail := owned.chain.2
    have head : Function.update (Function.update t 0 (t ref)) ref value 0 = t ref := by
      rw [Function.update_of_ne (by omega),Function.update_self]
    cases free with
    | nil => simpa [Chain,head] using tail
    | cons next rest =>
      refine ⟨by rw [head]; exact tail.1,tail.2.congr ?_⟩
      intro key member
      have := owned.positive key (List.mem_cons_of_mem _ member)
      have other : key ≠ ref := fun same => fresh (same ▸ member)
      rw [Function.update_of_ne other,Function.update_of_ne (by omega)]
  · exact nodup
  · exact fun other member => owned.positive other (List.mem_cons_of_mem _ member)
  · intro other member used
    rcases List.mem_cons.mp used with rfl | used
    · exact fresh member
    · exact owned.apart other (List.mem_cons_of_mem _ member) used
  · intro other used
    rcases List.mem_cons.mp used with rfl | used
    · exact ⟨positive,by rw [Function.update_self]; exact some_⟩
    · obtain ⟨above,held⟩ := owned.inUse other used
      have different : other ≠ ref := fun same => apart (same ▸ used)
      refine ⟨above,?_⟩
      rw [Function.update_of_ne different,Function.update_of_ne (by omega)]
      exact held

/-- With the list empty, the slot after a border. -/
theorem Owned.extend {t : Int → V} {value : V} (owned : Owned t [] live) (border : Border t len)
    (some_ : isNil value = false) :
    (len : Int) + 1 ∉ live ∧
      Owned (Function.update t ((len : Int) + 1) value) [] (((len : Int) + 1) :: live) := by
  have fresh : (len : Int) + 1 ∉ live := by
    intro used
    have := (owned.inUse _ used).2
    rw [border.2] at this
    contradiction
  refine ⟨fresh,?_,List.nodup_nil,nofun,nofun,?_⟩
  · refine owned.chain.congr ?_
    intro key member
    obtain rfl : key = 0 := by simpa using member
    exact Function.update_of_ne (by omega) _ _
  · intro other used
    rcases List.mem_cons.mp used with rfl | used
    · exact ⟨by omega,by rw [Function.update_self]; exact some_⟩
    · obtain ⟨above,held⟩ := owned.inUse other used
      have different : other ≠ (len : Int) + 1 := fun same => fresh (same ▸ used)
      exact ⟨above,by rw [Function.update_of_ne different]; exact held⟩

theorem Owned.fresh {t : Int → V} {value : V} (owned : Owned t free live) (border : Border t len)
    (some_ : isNil value = false) :
    (luaLRef t value len).1 ∉ live ∧
      ∃ free', Owned (luaLRef t value len).2 free' ((luaLRef t value len).1 :: live) := by
  cases free with
  | nil =>
    have empty : toInteger (t 0) = 0 := owned.chain
    have extended := owned.extend border some_
    have result : luaLRef t value len =
        ((len : Int) + 1, Function.update t ((len : Int) + 1) value) := by
      simp [luaLRef,some_,empty]
    rw [result]
    exact ⟨extended.1,[],extended.2⟩
  | cons ref rest =>
    have head : toInteger (t 0) = ref := owned.chain.1
    have positive := owned.positive ref (by simp)
    have taken : ref ≠ 0 := by omega
    have result : luaLRef t value len =
        (ref, Function.update (Function.update t 0 (t ref)) ref value) := by
      simp [luaLRef,some_,head,taken]
    rw [result]
    exact ⟨owned.apart ref (by simp),rest,owned.pop some_⟩

theorem Owned.released {t : Int → V} (owned : Owned t free live) (held : ref ∈ live)
    (fewer : live' ⊆ live) (gone : ref ∉ live') :
    Owned (luaLUnref t ref) (ref :: free) live' := by
  have positive := (owned.inUse ref held).1
  have unlisted : ref ∉ free := fun member => owned.apart ref member held
  rw [luaLUnref,if_pos (by omega)]
  constructor
  · refine ⟨by rw [Function.update_self,LuaValue.toInteger_push],?_⟩
    have next : Function.update (Function.update t ref (t 0)) 0 (pushInteger ref) ref = t 0 := by
      rw [Function.update_of_ne (by omega),Function.update_self]
    have chain := owned.chain
    cases free with
    | nil => simpa [Chain,next] using chain
    | cons first rest =>
      refine ⟨by rw [next]; exact chain.1,chain.2.congr ?_⟩
      intro key member
      have := owned.positive key member
      have other : key ≠ ref := fun same => unlisted (same ▸ member)
      rw [Function.update_of_ne (by omega),Function.update_of_ne other]
  · exact List.nodup_cons.mpr ⟨unlisted,owned.nodup⟩
  · exact List.forall_mem_cons.mpr ⟨positive,owned.positive⟩
  · exact List.forall_mem_cons.mpr ⟨gone,fun other member used =>
      owned.apart other member (fewer used)⟩
  · intro other used
    obtain ⟨above,full⟩ := owned.inUse other (fewer used)
    have different : other ≠ ref := fun same => gone (same ▸ used)
    refine ⟨above,?_⟩
    rw [Function.update_of_ne (by omega),Function.update_of_ne different]
    exact full

end LuaKernel.References
