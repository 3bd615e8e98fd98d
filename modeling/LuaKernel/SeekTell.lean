import LuaKernel.SyscallErrors

/-! Telling a position and seeking to it. SYS_lseek takes an offset, which counts from 0, and
returns `fd.pos`, which counts from 1: no position told is one that can be sought. -/
namespace LuaKernel.Syscalls

open Files Runs

def position (s : State) (fd : Int) : Option Int := getPos s (s.registry fd)

/-- `p = SYS_lseek(fd, 0, SEEK_CUR)` and then `SYS_lseek(fd, p, SEEK_SET)`: the position is
where it was, and `p` is returned again. -/
def ReturnsToTold (s : State) (fd : Int) : Prop :=
  ∃ p told sought, handle s (.lseek fd 0 SEEK_CUR) = some (p, told) ∧
    handle told (.lseek fd p SEEK_SET) = some (p, sought) ∧
    position sought fd = position s fd

def ReturnsOffset (s : State) (fd off : Int) : Prop :=
  ∃ sought, handle s (.lseek fd off SEEK_SET) = some (off, sought)

/-- What SYS_lseek promises of a descriptor; `off_t` has 64 bits. -/
structure TellsAndSeeks (s : State) (fd : Int) : Prop where
  told : ReturnsToTold s fd
  offset : ∀ off, 0 ≤ off → off < 2 ^ 63 → ReturnsOffset s fd off

/-- A seek puts the position one beyond the offset. -/
theorem seek_descriptor (linked : Linked s) (stored : s.registry fd = .descriptor i)
    (off : Int) : ∃ sought, handle s (.lseek fd off SEEK_SET) = some (toInt (off + 1), sought) ∧
      position sought fd = some (off + 1) := by
  obtain ⟨d,-,entry,-⟩ := linked.lookup stored
  refine ⟨_,by simp [handle,lseek,setPos,stored,entry]; rfl,?_⟩
  simp [position,getPos,stored,seek,entry]

/-- Telling returns the position as an `int` and leaves it. -/
theorem tell_descriptor (linked : Linked s) (stored : s.registry fd = .descriptor i) :
    ∃ pos told, position s fd = some pos ∧
      handle s (.lseek fd 0 SEEK_CUR) = some (toInt pos, told) ∧
      told.registry = s.registry ∧ Linked told := by
  obtain ⟨d,-,entry,-⟩ := linked.lookup stored
  obtain ⟨⟨value,told⟩,done⟩ := lseek_descriptor linked stored 0 SEEK_CUR
  have frame := lseek_frame done
  have value_ : value = d.pos := by
    obtain ⟨same,-⟩ := by simpa [lseek,SEEK_CUR,SEEK_SET,getPos,setPos,entry] using done
    exact same.symm
  exact ⟨d.pos,told,by simp [position,getPos,stored,entry],by simp [handle,stored,done,value_],
    frame.registry,linked.frame frame⟩

theorem told_elsewhere (linked : Linked s) (stored : s.registry fd = .descriptor i) :
    ¬ReturnsToTold s fd := by
  obtain ⟨pos,told,here,tell,registry,linked'⟩ := tell_descriptor linked stored
  obtain ⟨sought,seek,there⟩ := seek_descriptor linked' (registry ▸ stored) (toInt pos)
  rintro ⟨p,told',sought',tell',seek',same⟩
  obtain ⟨rfl,rfl⟩ := by simpa using tell.symm.trans tell'
  obtain ⟨-,rfl⟩ := by simpa using seek.symm.trans seek'
  have beyond : toInt pos + 1 = pos := by simpa [here,there] using same
  unfold toInt at beyond
  split at beyond <;> omega

theorem offset_shifted (linked : Linked s) (stored : s.registry fd = .descriptor i)
    (nonneg : 0 ≤ off) : ¬ReturnsOffset s fd off := by
  obtain ⟨sought,seek,-⟩ := seek_descriptor linked stored off
  rintro ⟨sought',seek'⟩
  obtain ⟨shifted,-⟩ := by simpa using seek.symm.trans seek'
  unfold toInt at shifted
  split at shifted <;> omega

theorem linked_run (ran : run step boot calls = some s) : Linked s :=
  run_invariant (fun _ _ _ linked moved => linked.step moved) ran boot_linked

/-- After every sequence of calls the promise holds of all descriptors exactly when there are
none: of a descriptor neither half of it holds. -/
theorem tells_and_seeks_iff (calls : List Call) (s : State) (ran : run step boot calls = some s) :
    ((∀ fd, IsDescriptor (s.registry fd) → TellsAndSeeks s fd) ↔
      ∀ fd, ¬IsDescriptor (s.registry fd)) ∧
    ∀ fd, IsDescriptor (s.registry fd) →
      ¬ReturnsToTold s fd ∧ ∀ off, 0 ≤ off → ¬ReturnsOffset s fd off := by
  have linked := linked_run ran
  have neither (fd : Int) (opened : IsDescriptor (s.registry fd)) :
      ¬ReturnsToTold s fd ∧ ∀ off, 0 ≤ off → ¬ReturnsOffset s fd off := by
    cases stored : s.registry fd with
    | descriptor i =>
      exact ⟨told_elsewhere linked stored,fun off nonneg => offset_shifted linked stored nonneg⟩
    | _ => simp [stored,IsDescriptor] at opened
  refine ⟨⟨?_,?_⟩,neither⟩
  · exact fun promise fd opened => (neither fd opened).1 (promise fd opened).told
  · exact fun closed fd opened => absurd opened (closed fd)

theorem new_file_neither : ∃ s, run step boot [.open_ "/b" 64 2] = some s ∧
    ¬ReturnsToTold s 3 ∧ ¬ReturnsOffset s 3 5 := by
  obtain ⟨s,ran⟩ : ∃ s, run step boot [.open_ "/b" 64 2] = some s := ⟨_,rfl⟩
  have opened : IsDescriptor (s.registry 3) := by
    cases ran
    trivial
  obtain ⟨told,offset⟩ := (tells_and_seeks_iff _ s ran).2 3 opened
  exact ⟨s,ran,told,offset 5 (by decide)⟩

/-- A file just opened: its position is told as 1, and a seek to 1 leads to position 2, which is
returned; nor is the offset 0 returned. -/
theorem tell_of_new_file : ∃ s, run step boot [.open_ "/a" 64 2] = some s ∧
    IsDescriptor (s.registry 3) ∧
    (handle s (.lseek 3 0 1)).map (·.1) = some 1 ∧ (handle s (.lseek 3 1 0)).map (·.1) = some 2 ∧
    ¬ReturnsToTold s 3 ∧ ¬ReturnsOffset s 3 0 := by
  obtain ⟨s,ran⟩ : ∃ s, run step boot [.open_ "/a" 64 2] = some s := ⟨_,rfl⟩
  have linked := linked_run ran
  have stored : s.registry 3 = .descriptor 0 := by
    cases ran
    rfl
  refine ⟨s,ran,by rw [stored]; trivial,?_,?_,told_elsewhere linked stored,
    offset_shifted linked stored (by decide)⟩
  · cases ran
    rfl
  · cases ran
    rfl

end LuaKernel.Syscalls
