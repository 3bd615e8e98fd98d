import LuaKernel.Syscalls

/-! Descriptor numbers. SYS_close releases nothing, so a number once returned stays in use, and
the slots in use are those numbers, the references of the binding, and 1 and 2. -/
namespace LuaKernel.Syscalls

open References Runs

def live (s : State) : List Int := 1 :: 2 :: (s.opened ++ s.held)

structure Kept (s : State) (free : List Int) : Prop where
  owned : Owned s.registry free (live s)
  nodup : (live s).Nodup

theorem Kept.frame (kept : Kept s free) (frame : Frame s next) : Kept next free := by
  have slots : live next = live s := by rw [live,live,frame.held,frame.opened]
  exact ⟨by rw [frame.registry,slots]; exact kept.owned,slots ▸ kept.nodup⟩

/-- One more slot in use, wherever it is listed. -/
theorem Kept.fresh (kept : Kept s free) (border : Border s.registry len)
    (some_ : isNil value = false) (registry : next.registry = (luaLRef s.registry value len).2)
    (slots : (live next).Perm ((luaLRef s.registry value len).1 :: live s)) :
    ∃ free', Kept next free' := by
  obtain ⟨fresh,free',owned⟩ := kept.owned.fresh border some_
  refine ⟨free',?_,?_⟩
  · rw [registry]
    exact owned.mono slots.subset
  · exact slots.nodup_iff.mpr (List.nodup_cons.mpr ⟨fresh,kept.nodup⟩)

theorem openValue_some (result : Option Nat) : isNil (openValue result) = false := by
  cases result <;> rfl

/-- A slot given back is no longer among those in use. -/
theorem Kept.released (kept : Kept s free) (held : ref ∈ s.held) :
    Kept { s with registry := luaLUnref s.registry ref, held := s.held.erase ref }
      (ref :: free) := by
  have slots : (live s).Perm (ref :: 1 :: 2 :: (s.opened ++ s.held.erase ref)) :=
    ((List.perm_cons_erase held).append_left (1 :: 2 :: s.opened)).trans List.perm_middle
  obtain ⟨gone,nodup⟩ := List.nodup_cons.mp (slots.nodup_iff.mp kept.nodup)
  have used : ref ∈ live s := slots.mem_iff.mpr (by simp)
  have fewer : 1 :: 2 :: (s.opened ++ s.held.erase ref) ⊆ live s :=
    fun other member => slots.mem_iff.mpr (List.mem_cons_of_mem _ member)
  exact ⟨kept.owned.released used fewer gone,nodup⟩

theorem Kept.stored (kept : Kept s free) (border : Border s.registry len) (value : Object) :
    ∃ free', Kept
      { s with
        registry := (luaLRef s.registry value len).2
        held := if 0 ≤ (luaLRef s.registry value len).1 then
            (luaLRef s.registry value len).1 :: s.held
          else s.held } free' := by
  cases empty : isNil value with
  | true =>
    have result : luaLRef s.registry value len = (LUA_REFNIL, s.registry) := by
      simp [luaLRef,empty]
    simp only [result]
    exact ⟨free,kept⟩
  | false =>
    obtain ⟨-,_,owned⟩ := kept.owned.fresh border empty
    have positive := (owned.inUse _ List.mem_cons_self).1
    refine kept.fresh border empty rfl ?_
    rw [live,if_pos (by omega)]
    exact @List.perm_middle _ _ (1 :: 2 :: s.opened) _

theorem Kept.step (kept : Kept s free) (moved : step s call = some next) :
    ∃ free', Kept next free' := by
  cases step_moves s next moved with
  | opened border =>
    exact kept.fresh border (openValue_some _) rfl (@List.perm_middle _ _ [1, 2] _)
  | framed frame => exact ⟨free,kept.frame frame⟩
  | stored border => exact kept.stored border _
  | @released ref owned =>
    rcases owned with held | negative
    · exact ⟨_,kept.released held⟩
    · have absent : ref ∉ s.held := by
        intro held
        have := (kept.owned.inUse ref (by simp [live,held])).1
        omega
      rw [luaLUnref,if_neg (by omega),List.erase_of_not_mem absent]
      exact ⟨free,kept⟩

/-- Whatever `open` returns is found under the number that SYS_open returns, which is not in
use. -/
theorem Kept.opens (kept : Kept s free) (border : Border s.registry len) (pathname : String)
    (flags : Nat) :
    ∃ fd next, handle s (.open_ pathname flags len) = some (fd, next) ∧ 0 < fd ∧ fd ∉ live s ∧
      next.fs = (Files.open_ pathname flags s.fs).2 ∧
      next.registry fd = openValue (Files.open_ pathname flags s.fs).1 := by
  have some_ := openValue_some (Files.open_ pathname flags s.fs).1
  obtain ⟨unused,_,owned⟩ := kept.owned.fresh border some_
  have positive := (owned.inUse _ List.mem_cons_self).1
  exact ⟨_,_,rfl,positive,unused,rfl,luaLRef_stores s.registry len some_⟩

/-- Before the first call: the main thread and the globals are stored, nothing is free, and
nothing is in use but them. -/
structure Fresh (s : State) : Prop where
  thread : isNil (s.registry 1) = false
  globals : isNil (s.registry 2) = false
  empty : toInteger (s.registry 0) = 0
  none_held : s.held = []
  none_opened : s.opened = []

theorem Fresh.kept (fresh : Fresh s) : Kept s [] := by
  have slots : live s = [1, 2] := by rw [live,fresh.none_held,fresh.none_opened,List.append_nil]
  constructor
  · refine ⟨fresh.empty,List.nodup_nil,nofun,nofun,?_⟩
    rw [slots]
    intro ref member
    have either : ref = 1 ∨ ref = 2 := by simpa using member
    rcases either with rfl | rfl
    · exact ⟨by decide,fresh.thread⟩
    · exact ⟨by decide,fresh.globals⟩
  · rw [slots]
    decide

theorem Fresh.run (fresh : Fresh start) (ran : run step start calls = some s) :
    ∃ free, Kept s free := by
  refine run_invariant (P := fun s => ∃ free, Kept s free) ?_ ran ⟨[],fresh.kept⟩
  rintro s call next ⟨free,kept⟩ moved
  exact kept.step moved

/-- A number that SYS_open returns is none of the standard streams, no number it has returned
before, and no reference that the binding holds. -/
theorem descriptors_fresh (start s : State) (fresh : Fresh start) (calls : List Call)
    (ran : run step start calls = some s) (pathname : String) (flags len : Nat)
    (border : Border s.registry len) :
    ∃ fd next, handle s (.open_ pathname flags len) = some (fd, next) ∧
      3 ≤ fd ∧ fd ∉ s.opened ∧ fd ∉ s.held := by
  obtain ⟨free,kept⟩ := fresh.run ran
  obtain ⟨fd,next,done,positive,unused,-⟩ := kept.opens border pathname flags
  simp only [live,List.mem_cons,List.mem_append,not_or] at unused
  obtain ⟨not_one,not_two,not_opened,not_held⟩ := unused
  exact ⟨fd,next,done,by omega,not_opened,not_held⟩

def boot : State where
  fs := Files.boot
  registry slot := if slot = 1 then .atom 0 else if slot = 2 then .table 0 else .nil
  tables _ := none
  held := []
  opened := []

theorem boot_fresh : Fresh boot := ⟨rfl,rfl,rfl,rfl,rfl⟩

/-- A reference of the binding is released between two opens, and the second takes its slot. -/
theorem released_slot_fresh : ∃ s fd next,
    run step boot [.ref (.atom 1) 2, .open_ "/a" 64 3, .close 4, .unref 3] = some s ∧
      handle s (.open_ "/b" 64 4) = some (fd, next) ∧ 3 ≤ fd ∧ fd ∉ s.opened ∧ fd ∉ s.held := by
  obtain ⟨s,ran,border⟩ : ∃ s,
      run step boot [.ref (.atom 1) 2, .open_ "/a" 64 3, .close 4, .unref 3] = some s ∧
        Border s.registry 4 := ⟨_,rfl,by decide⟩
  obtain ⟨fd,next,result⟩ := descriptors_fresh boot s boot_fresh _ ran "/b" 64 4 border
  exact ⟨s,fd,next,ran,result⟩

end LuaKernel.Syscalls
