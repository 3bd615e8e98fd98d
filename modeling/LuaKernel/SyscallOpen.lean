import LuaKernel.Descriptors

/-! The outcome of SYS_open. `open` reports a failure as the number -1, which SYS_open stores in
the registry like a descriptor and returns a reference to, so no caller sees a failure. -/
namespace LuaKernel.Syscalls

open References Runs

def Refused (s : State) (pathname : String) (flags : Nat) : Prop :=
  s.fs.files pathname = none ∧ flags &&& Files.O_CREAT ≠ Files.O_CREAT

def RecordFor (s : State) (pathname : String) (value : Object) : Prop :=
  ∃ i d, value = .descriptor i ∧ s.fs.fds[i]? = some d ∧ d.top = pathname ∧
    s.fs.files pathname ≠ none

/-- A failure is reported by a negative number and changes nothing; otherwise the number refers
to a record for the file. -/
def Reports (s : State) (pathname : String) (flags len : Nat) : Prop :=
  ∃ fd next, handle s (.open_ pathname flags len) = some (fd, next) ∧
    (fd < 0 ↔ Refused s pathname flags) ∧
    (Refused s pathname flags → next.fs.files = s.fs.files ∧ next.registry = s.registry) ∧
    (¬Refused s pathname flags → RecordFor next pathname (next.registry fd))

theorem opened_record (s : State) (found : ¬Refused s pathname flags)
    (fs : next.fs = (Files.open_ pathname flags s.fs).2) :
    RecordFor next pathname (openValue (Files.open_ pathname flags s.fs).1) := by
  have done := Files.open_performs s.fs pathname flags
  cases result : Files.open_ pathname flags s.fs with
  | mk fd after =>
    rw [result] at done fs
    cases done with
    | missing absent noCreate => exact absurd ⟨absent,noCreate⟩ found
    | created => exact ⟨_,⟨pathname, 1⟩,rfl,by simp [fs],rfl,by simp [fs]⟩
    | reopened present => exact ⟨_,⟨pathname, 1⟩,rfl,by simp [fs],rfl,by simp [fs,present]⟩

/-- SYS_open reports its outcome exactly when it has no failure to report. -/
theorem reports_iff (start s : State) (fresh : Fresh start) (calls : List Call)
    (ran : run step start calls = some s) (pathname : String) (flags len : Nat)
    (border : Border s.registry len) :
    Reports s pathname flags len ↔ ¬Refused s pathname flags := by
  obtain ⟨free,kept⟩ := fresh.run ran
  obtain ⟨fd,next,done,positive,-,fs,stored⟩ := kept.opens border pathname flags
  constructor
  · rintro ⟨_,_,done',sign,-⟩ refused
    obtain ⟨rfl,rfl⟩ := by simpa using done.symm.trans done'
    have negative := sign.mpr refused
    omega
  · intro found
    refine ⟨fd,next,done,iff_of_false (by omega) found,fun refused => absurd refused found,?_⟩
    rw [stored]
    exact fun _ => opened_record s found fs

/-- The number of a file that is there, opened after another was refused. -/
theorem created_reports : ∃ s, run step boot [.open_ "/a" 0 2, .open_ "/b" 64 3] = some s ∧
    Reports s "/b" 0 4 := by
  obtain ⟨s,ran,border,present⟩ : ∃ s,
      run step boot [.open_ "/a" 0 2, .open_ "/b" 64 3] = some s ∧ Border s.registry 4 ∧
        (s.fs.files "/b").isSome = true := ⟨_,rfl,by decide,rfl⟩
  have found : ¬Refused s "/b" 0 := fun refused => by simp [refused.1] at present
  exact ⟨s,ran,(reports_iff boot s boot_fresh _ ran "/b" 0 4 border).mpr found⟩

/-- The first call of the kernel asks for a file that is not there and gets the number 3. -/
theorem absent_file_opened : Refused boot "/a" 0 ∧ Border boot.registry 2 ∧
    (∃ next, handle boot (.open_ "/a" 0 2) = some (3, next) ∧
      next.registry 3 = .number (-1) ∧ boot.registry 3 = .nil) ∧
    ¬Reports boot "/a" 0 2 := by
  have refused : Refused boot "/a" 0 := ⟨rfl,by decide⟩
  refine ⟨refused,by decide,⟨_,rfl,rfl,rfl⟩,?_⟩
  rintro ⟨fd,next,done,sign,-⟩
  have number : fd = 3 := by
    have first := congrArg (Option.map (·.1)) done
    exact (Option.some.inj first).symm
  have negative := sign.mpr refused
  omega

end LuaKernel.Syscalls
