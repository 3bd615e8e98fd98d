import LuaKernel.FileRuns

/-! Positions of descriptors. They count from 1, and `lseek` stores whatever sum it is given:
below 1 `string.sub` counts from the end of the content, and the halves that `sinsert` joins
overlap. -/
namespace LuaKernel.Files

open Strings Runs

/-- Where `lseek` means to move; `none` for a `whence` it does not support. -/
def target (d : Descriptor) (offset whence : Int) : Option Int :=
  if whence = SEEK_SET then some (offset + 1)
  else if whence = SEEK_CUR then some (d.pos + offset)
  else none

def size (fs : FileSystem) (path : String) : Nat := ((fs.files path).map (·.buf.length)).getD 0

def Positive (fs : FileSystem) : Prop := ∀ d ∈ fs.fds, 1 ≤ d.pos

/-- No descriptor before the start of its file, an `lseek` there refused, and a write no
longer than its bytes. -/
structure Sound (fs : FileSystem) (op : Op) (answer : Answer) (next : FileSystem) : Prop where
  positive : Positive next
  refused : op = .lseek fd offset whence → fs.fds[fd]? = some d →
    (∀ pos, target d offset whence = some pos → pos < 1) →
      answer = .moved (-1) ∧ next.fds[fd]? = some d
  grows : op = .write fd buf → fs.fds[fd]? = some d →
    size next d.top ≤ size fs d.top + buf.length

def Soundly (fs : FileSystem) (op : Op) : Prop :=
  ∀ answer next, perform fs op = some (answer, next) → Sound fs op answer next

/-- The operation is no `lseek` to before the start. -/
def Inside (fs : FileSystem) : Op → Prop
  | .lseek fd offset whence =>
    ∀ d, fs.fds[fd]? = some d → ∀ pos, target d offset whence = some pos → 1 ≤ pos
  | _ => True

theorem Positive.seek (positive : Positive fs) (inside : 1 ≤ pos) : Positive (seek fd pos fs) := by
  intro d member
  obtain ⟨old,before,-,same | moved⟩ := seek_mem member
  · exact same ▸ positive old before
  · exact moved ▸ inside

theorem Positive.open_ (positive : Positive fs) :
    Positive { fs with fds := fs.fds ++ [⟨path, 1⟩] } := by
  intro d member
  rcases List.mem_append.mp member with old | new
  · exact positive d old
  · obtain rfl := List.mem_singleton.mp new
    exact Int.le_refl 1

theorem Performs.positive (done : Performs fs op answer next) (positive : Positive fs)
    (inside : Inside fs op) : Positive next := by
  cases done with
  | missing | device | unsupported => exact positive
  | created | reopened => exact positive.open_
  | regular opened | write opened =>
    have := positive _ (List.mem_of_getElem? opened)
    exact Positive.seek positive (by omega)
  | set opened | current opened =>
    exact positive.seek (inside _ opened _ (by simp [target,SEEK_SET,SEEK_CUR]))

theorem Performs.refused (done : Performs fs (.lseek fd offset whence) answer next)
    (opened : fs.fds[fd]? = some d) (inside : Inside fs (.lseek fd offset whence))
    (outside : ∀ pos, target d offset whence = some pos → pos < 1) :
    answer = .moved (-1) ∧ next.fds[fd]? = some d := by
  have unsupported : target d offset whence = none := by
    cases goal : target d offset whence with
    | none => rfl
    | some pos =>
      have := inside d opened pos goal
      have := outside pos goal
      omega
  cases done with
  | set | current => simp [target,SEEK_SET,SEEK_CUR] at unsupported
  | unsupported => exact ⟨rfl,opened⟩

theorem Performs.grows (done : Performs fs (.write fd buf) answer next) (positive : Positive fs)
    (opened : fs.fds[fd]? = some d) : size next d.top ≤ size fs d.top + buf.length := by
  cases done with
  | write opened' record =>
    obtain rfl := Option.some.inj (opened.symm.trans opened')
    have inside := positive d (List.mem_of_getElem? opened)
    simp only [size,Files.seek,record,Function.update_self,Option.map_some,Option.getD_some]
    exact Nat.le_of_eq (sinsert_length _ buf d.pos (by omega))

/-- An `lseek` to before the start is what breaks the law, and nothing else does. -/
theorem soundly_iff (fs : FileSystem) (op : Op) (positive : Positive fs) :
    Soundly fs op ↔ Inside fs op := by
  constructor
  · intro sound
    cases op with
    | lseek fd offset whence =>
      intro d opened pos goal
      have done : perform fs (.lseek fd offset whence) = some (.moved pos, seek fd pos fs) := by
        simp only [target] at goal
        simp only [perform,lseek,opened,Option.map_some]
        split at goal
        · simp_all
        · split at goal <;> simp_all
      have moved : { d with pos := pos } ∈ (seek fd pos fs).fds :=
        List.mem_of_getElem? (i := fd) (by simp [seek,opened])
      exact (sound _ _ done).positive _ moved
    | _ => trivial
  · intro inside answer next done
    have performs := perform_performs fs next answer done
    refine ⟨performs.positive positive inside,?_,?_⟩
    · rintro _ _ _ _ rfl opened outside
      exact performs.refused opened inside outside
    · rintro _ _ _ rfl opened
      exact performs.grows positive opened

/-- Along every run from the start the law holds exactly when no `lseek` goes to before the
start of its file. -/
theorem positions_sound_iff (ops : List Op) :
    Along after Soundly boot ops ↔ Along after Inside boot ops := by
  refine along_iff soundly_iff ?_ (by simp [Positive,boot]) ops
  intro fs op next _ sound moved
  obtain ⟨answer,done⟩ := after_perform fs next moved
  exact (sound answer next done).positive

/-- After `lseek(fd, -2, SEEK_SET)`, whose result is -1, one byte is written to a file of
three, and the file has seven. -/
theorem lseek_before_start : ∃ fs moved final,
    run after boot [.open_ "/f" O_CREAT, .write 0 [97, 98, 99]] = some fs ∧
      size fs "/f" = 3 ∧
      perform fs (.lseek 0 (-2) SEEK_SET) = some (.moved (-1), moved) ∧
      ¬Positive moved ∧ ¬Soundly fs (.lseek 0 (-2) SEEK_SET) ∧
      perform moved (.write 0 [120]) = some (.written 1, final) ∧ size final "/f" = 7 := by
  refine ⟨_,_,_,rfl,rfl,rfl,?_,?_,rfl,rfl⟩
  · intro positive
    exact absurd (positive ⟨"/f", -1⟩ (List.mem_of_getElem? (i := 0) rfl)) (by decide)
  · intro sound
    have positive := (sound _ _ rfl).positive
    exact absurd (positive ⟨"/f", -1⟩ (List.mem_of_getElem? (i := 0) rfl)) (by decide)

end LuaKernel.Files
