import LuaKernel.FileRuns

/-! The records `/dev/null` and `/dev/urandom`. `read` calls the handler a record has; `write`
never does, and it is the generic operation that runs on a device. The number a read handler
returns reaches the caller as its text. -/
namespace LuaKernel.Files

open Strings Runs

def devices : List String := ["/dev/null", "/dev/urandom"]

def deviceWrite (buf : Bytes) (fs : FileSystem) : Nat × FileSystem := (buf.length, fs)

def Untouched (fs : FileSystem) : Prop := ∀ path ∈ devices, fs.files path = some ⟨[], true⟩

/-- Both records stay empty, a write to one is what its handler does, and a read from one
copies no more than was asked for. -/
structure Handled (fs : FileSystem) (op : Op) (answer : Answer) (next : FileSystem) : Prop where
  untouched : Untouched next
  consumed : op = .write fd buf → fs.fds[fd]? = some d → d.top ∈ devices →
    answer = .written (deviceWrite buf fs).1 ∧ next = (deviceWrite buf fs).2
  copied : op = .read fd count → fs.fds[fd]? = some d → d.top ∈ devices →
    ∃ bytes, sysRead fd count fs = some (bytes, next) ∧ bytes.length ≤ count

def Handles (fs : FileSystem) (op : Op) : Prop :=
  ∀ answer next, perform fs op = some (answer, next) → Handled fs op answer next

def Harmless (fs : FileSystem) : Op → Prop
  | .write fd buf => ∀ d, fs.fds[fd]? = some d → d.top ∈ devices → buf = []
  | .read fd count => ∀ d, fs.fds[fd]? = some d → d.top ∈ devices → 0 < count
  | _ => True

theorem sinsert_empty (val : Bytes) (pos : Int) : sinsert [] val pos = val := by
  simp [sinsert,strSub,slice]

theorem write_empty (untouched : Untouched fs) (opened : fs.fds[fd]? = some d)
    (device : d.top ∈ devices) : write fd [] fs = some (0, fs) := by
  have record := untouched d.top device
  have same : Function.update fs.files d.top (some ⟨[], true⟩) = fs.files := by
    rw [← record,Function.update_eq_self]
  simp [write,opened,record,sinsert_empty,same,seek_self opened]

theorem read_device (untouched : Untouched fs) (opened : fs.fds[fd]? = some d)
    (device : d.top ∈ devices) (count : Nat) : read fd count fs = some (.num count, fs) := by
  simp [read,opened,untouched d.top device]

theorem sysRead_device (untouched : Untouched fs) (opened : fs.fds[fd]? = some d)
    (device : d.top ∈ devices) (count : Nat) :
    sysRead fd count fs = some (tolstring (.num count), fs) := by
  rw [sysRead,read_device untouched opened device,Option.map_some]

theorem Performs.untouched (done : Performs fs op answer next) (untouched : Untouched fs)
    (harmless : Harmless fs op) : Untouched next := by
  intro path device
  have before := untouched path device
  cases done with
  | @created path' _ absent =>
    have other : path ≠ path' := by
      rintro rfl
      rw [absent] at before
      contradiction
    simpa [other] using before
  | write opened record =>
    rename_i d file buf
    by_cases same : path = d.top
    · subst same
      obtain rfl := Option.some.inj (record.symm.trans before)
      simp [seek,harmless d opened device,sinsert_empty]
    · simpa [seek,same] using before
  | _ => exact before

/-- Writing a byte to a device or asking it for none is what breaks the law, and nothing else
does. -/
theorem handles_iff (fs : FileSystem) (op : Op) (untouched : Untouched fs) :
    Handles fs op ↔ Harmless fs op := by
  constructor
  · intro handles
    cases op with
    | write fd buf =>
      intro d opened device
      have record := untouched d.top device
      have done : perform fs (.write fd buf) = some (.written buf.length,
          seek fd (d.pos + buf.length)
            { fs with
              files := Function.update fs.files d.top (some ⟨buf, true⟩) }) := by
        simp [perform,write,opened,record,sinsert_empty]
      have after := (handles _ _ done).untouched d.top device
      simpa [seek] using after
    | read fd count =>
      intro d opened device
      have done : perform fs (.read fd count) = some (.data (.num count), fs) := by
        simp [perform,read_device untouched opened device]
      obtain ⟨bytes,copied,bound⟩ := (handles _ _ done).copied rfl opened device
      rw [sysRead_device untouched opened device] at copied
      obtain ⟨rfl,-⟩ := by simpa using copied
      by_contra none
      obtain rfl : count = 0 := by omega
      exact absurd bound (by decide)
    | _ => trivial
  · intro harmless answer next done
    have performs := perform_performs fs next answer done
    refine ⟨performs.untouched untouched harmless,?_,?_⟩
    · rintro fd buf d rfl opened device
      obtain rfl := harmless d opened device
      simp only [perform,write_empty untouched opened device] at done
      simpa [deviceWrite,eq_comm] using done
    · rintro fd count d rfl opened device
      have copied := sysRead_device untouched opened device count
      have bound := Numbers.format_length count (harmless d opened device)
      refine ⟨_,?_,bound⟩
      simp only [perform,read_device untouched opened device] at done
      obtain ⟨-,rfl⟩ := by simpa using done
      exact copied

/-- Along every run from the start the law holds exactly when no byte is written to a device
and every read of one asks for some. -/
theorem devices_handled_iff (ops : List Op) :
    Along after Handles boot ops ↔ Along after Harmless boot ops := by
  refine along_iff handles_iff ?_ (by simp [Untouched,devices,boot]) ops
  intro fs op next _ handles moved
  obtain ⟨answer,done⟩ := after_perform fs next moved
  exact (handles answer next done).untouched

/-- A byte written to `/dev/null` stays in its record, and a read of no bytes copies one. -/
theorem null_not_handled : ∃ opened written,
    run after boot [.open_ "/dev/null" 0] = some opened ∧
      perform opened (.write 0 [120]) = some (.written 1, written) ∧
      (written.files "/dev/null").map (·.buf) = some [120] ∧
      ¬Handles opened (.write 0 [120]) ∧
      (sysRead 0 0 opened).map (·.1) = some [48] ∧ ¬Handles opened (.read 0 0) := by
  refine ⟨_,_,rfl,rfl,rfl,?_,by decide,?_⟩
  · intro handles
    have := (handles _ _ rfl).untouched "/dev/null" (by decide)
    exact absurd (congrArg (Option.map (·.buf)) this) (by decide)
  · intro handles
    obtain ⟨bytes,copied,bound⟩ :=
      (handles _ _ rfl).copied (d := ⟨"/dev/null", 1⟩) rfl rfl (by decide)
    have length := congrArg (Option.map (·.1.length)) copied
    have : some 1 = some bytes.length := length
    simp at this
    omega

end LuaKernel.Files
