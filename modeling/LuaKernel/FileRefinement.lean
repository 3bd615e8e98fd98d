import Mathlib.Data.List.Nodup
import LuaKernel.FileRecords
import LuaKernel.Projection

/-! The tables against the model that names records by their paths and descriptors by their
places. Every run on the tables is a run of that model, so what holds of all of its runs
holds of the tables. -/
namespace LuaKernel.Records

open Files Projection

/-- `fs` is what the tables hold; `ids` are the descriptors in the order of opening. -/
structure Represents (h : Heap) (ids : List Nat) (fs : FileSystem) : Prop where
  files : ∀ path, fs.files path = (h.fs path).bind h.records
  length : fs.fds.length = ids.length
  fds {i fd : Nat} {d : Files.Descriptor} : ids[i]? = some fd → fs.fds[i]? = some d →
    ∃ e, h.fds fd = some e ∧ h.fs d.top = some e.top ∧ d.pos = e.pos
  listed : fd ∈ ids ↔ h.fds fd ≠ none
  nodup : ids.Nodup
  stdout : fs.stdout = h.stdout

theorem boot_represents : Represents boot [] Files.boot where
  files path := by
    simp only [boot,Files.boot]
    grind
  length := rfl
  fds := nofun
  listed := by simp [boot]
  nodup := List.nodup_nil
  stdout := rfl

/-- An operation through the descriptor at place `i`. -/
def fileOp (i : Nat) : Access → Files.Op
  | .read count => .read i count
  | .write buf => .write i buf
  | .lseek offset whence => .lseek i offset whence

inductive Matches (ids : List Nat) : Op → Answer → Files.Op → Answer → Prop
  | missing : Matches ids (.open_ path flags record fd) (.opened none) (.open_ path flags)
      (.opened none)
  | opened (place : ids[i]? = some fd) : Matches ids (.open_ path flags record fd)
      (.opened (some fd)) (.open_ path flags) (.opened (some i))
  | on (place : ids[i]? = some fd) : Matches ids (.on fd what) answer (fileOp i what) answer

/-- Places stay when more descriptors are opened. -/
theorem Matches.extend (matched : Matches ids op answer op' answer') (more : List Nat) :
    Matches (ids ++ more) op answer op' answer' := by
  have kept : ∀ {i fd : Nat}, ids[i]? = some fd → (ids ++ more)[i]? = some fd := by
    intro i fd place
    rw [List.getElem?_append_left (List.getElem?_eq_some_iff.mp place).1,place]
  cases matched with
  | missing => exact .missing
  | opened place => exact .opened (kept place)
  | on place => exact .on (kept place)

/-- What an operation does to the tables, it does to the file and the descriptor. -/
theorem perform_access (opened : fs.fds[i]? = some d) (record : fs.files d.top = some file)
    (what : Access) :
    Files.perform fs (fileOp i what) = some ((access what d.pos file).answer,
      seek i (access what d.pos file).pos
        { fs with
          stdout := fs.stdout ++ (access what d.pos file).printed
          files := Function.update fs.files d.top (some (access what d.pos file).file) }) := by
  have same : Function.update fs.files d.top (some file) = fs.files := by
    rw [← record,Function.update_eq_self]
  cases what with
  | read count =>
    cases special : file.device with
    | true =>
      simp [fileOp,Files.perform,Files.read,opened,record,special,access,read,same,
        seek_self opened]
    | false =>
      simp [fileOp,Files.perform,Files.read,opened,record,special,access,read,same,print,seek]
  | write buf => simp [fileOp,Files.perform,Files.write,opened,record,access,write]
  | lseek offset whence =>
    simp only [fileOp,Files.perform,Files.lseek,opened,access,lseek,Option.map_some]
    split
    · simp [same]
    · split
      · simp [same]
      · simp [same,seek_self opened]

/-- The place of a descriptor, and what stands there. -/
theorem Represents.place (represents : Represents h ids fs) (opened : h.fds fd = some e) :
    ∃ (i : Nat) (d : Files.Descriptor), ids[i]? = some fd ∧ fs.fds[i]? = some d ∧
      h.fs d.top = some e.top ∧ d.pos = e.pos := by
  have member : fd ∈ ids := represents.listed.mpr (by simp [opened])
  obtain ⟨i,place⟩ := List.mem_iff_getElem?.mp member
  have inside : i < fs.fds.length := by
    rw [represents.length]
    exact (List.getElem?_eq_some_iff.mp place).1
  have entry : fs.fds[i]? = some (fs.fds.get ⟨i, inside⟩) := List.getElem?_eq_getElem inside
  obtain ⟨e',opened',found,pos⟩ := represents.fds place entry
  obtain rfl := Option.some.inj (opened.symm.trans opened')
  exact ⟨i,_,place,entry,found,pos⟩

theorem Represents.open_ (represents : Represents h ids fs) (unused : h.fds fd = none)
    (found : h.fs path = some top) :
    Represents { h with fds := Function.update h.fds fd (some ⟨top, 1⟩) } (ids ++ [fd])
      { fs with fds := fs.fds ++ [⟨path, 1⟩] } where
  files := represents.files
  length := by simp [represents.length]
  fds := by
    intro i other d place entry
    rcases Nat.lt_trichotomy i ids.length with old | new | past
    · rw [List.getElem?_append_left old] at place
      rw [List.getElem?_append_left (represents.length ▸ old)] at entry
      obtain ⟨e,opened,rest⟩ := represents.fds place entry
      have different : other ≠ fd := by
        rintro rfl
        simp [unused] at opened
      exact ⟨e,by simpa [different] using opened,rest⟩
    · subst new
      obtain rfl : fd = other := by simpa using place
      rw [← represents.length] at entry
      obtain rfl := by simpa using entry
      exact ⟨⟨top, 1⟩,by simp,found,rfl⟩
    · rw [List.getElem?_eq_none (by simp; omega)] at place
      contradiction
  listed := by
    intro other
    by_cases here : other = fd
    · simp [here]
    · simp [here,represents.listed]
  nodup := by
    have fresh : fd ∉ ids := by simp [represents.listed,unused]
    refine List.nodup_append.mpr ⟨represents.nodup,List.nodup_singleton fd,?_⟩
    rintro other member _ last rfl
    exact fresh (List.mem_singleton.mp last ▸ member)
  stdout := represents.stdout

theorem Represents.create (represents : Represents h ids fs) (separate : Separate h)
    (absent : h.fs path = none) (unused : h.records record = none) (file : File) :
    Represents { h with
        stdout := h.stdout ++ text "creat" ++ [10]
        records := Function.update h.records record (some file)
        fs := Function.update h.fs path (some record) } ids
      { print (text "creat") fs with files := Function.update fs.files path (some file) } where
  files other := by
    by_cases here : other = path
    · simp [here]
    · cases found : h.fs other with
      | none => simp [here,represents.files,found]
      | some top =>
        have different : top ≠ record := fun same => separate.new unused (same ▸ found)
        simp [here,represents.files,found,different]
  length := represents.length
  fds := by
    intro i fd d place entry
    obtain ⟨e,opened,found,pos⟩ := represents.fds place entry
    have different : d.top ≠ path := by
      intro same
      simp [same,absent] at found
    exact ⟨e,opened,by simpa [different] using found,pos⟩
  listed := represents.listed
  nodup := represents.nodup
  stdout := by simp [print,represents.stdout]

theorem Represents.update {d : Files.Descriptor} (represents : Represents h ids fs)
    (separate : Separate h) (opened : h.fds fd = some e) (place : ids[i]? = some fd)
    (entry : fs.fds[i]? = some d) (found : h.fs d.top = some e.top) :
    Represents { h with
        stdout := h.stdout ++ printed
        records := Function.update h.records e.top (some file)
        fds := Function.update h.fds fd (some ⟨e.top, pos⟩) } ids
      (seek i pos
        { fs with
          stdout := fs.stdout ++ printed
          files := Function.update fs.files d.top (some file) }) where
  files path := by
    by_cases here : path = d.top
    · simp [seek,here,found]
    · cases found' : h.fs path with
      | none => simp [seek,here,represents.files,found']
      | some top =>
        have different : top ≠ e.top := by
          rintro rfl
          exact here (separate.apart found' found)
        simp [seek,here,represents.files,found',different]
  length := by simp [seek,represents.length]
  fds := by
    intro j other d' place' entry'
    by_cases here : j = i
    · subst here
      obtain rfl := Option.some.inj (place.symm.trans place')
      obtain rfl := by simpa [seek,entry] using entry'
      exact ⟨⟨e.top, pos⟩,by simp,found,rfl⟩
    · have old : fs.fds[j]? = some d' := by simpa [seek,Ne.symm here] using entry'
      have different : other ≠ fd := by
        rintro rfl
        have inside := (List.getElem?_eq_some_iff.mp place').1
        exact here ((List.getElem?_inj inside represents.nodup).mp (place'.trans place.symm))
      obtain ⟨e',opened',rest⟩ := represents.fds place' old
      exact ⟨e',by simpa [different] using opened',rest⟩
  listed := by
    intro other
    by_cases here : other = fd
    · simp [here,represents.listed,opened]
    · simp [here,represents.listed]
  nodup := represents.nodup
  stdout := by simp [seek,represents.stdout]

/-- An operation on the tables is one of the model. -/
theorem Represents.step (represents : Represents h ids fs) (separate : Separate h)
    (done : Performs h op answer next) :
    ∃ more op' answer' fs', Files.perform fs op' = some (answer', fs') ∧
      Matches (ids ++ more) op answer op' answer' ∧ Represents next (ids ++ more) fs' := by
  cases done with
  | @missing path flags _ _ absent noCreate =>
    refine ⟨[],.open_ path flags,.opened none,fs,?_,.missing,by simpa using represents⟩
    simp [Files.perform,Files.open_,represents.files,absent,noCreate]
  | @created path flags record fd absent create newRecord newFd =>
    have stored := represents.create separate absent newRecord ⟨[], false⟩
    refine ⟨[fd],.open_ path flags,.opened (some fs.fds.length),_,?_,.opened ?_,
      stored.open_ newFd (Function.update_self _ _ _)⟩
    · simp [Files.perform,Files.open_,represents.files,absent,create,never_append,print]
    · simp [represents.length]
  | @reopened path top record fd flags present newRecord newFd =>
    refine ⟨[fd],.open_ path flags,.opened (some fs.fds.length),_,?_,.opened ?_,
      represents.open_ newFd present⟩
    · have found : fs.files path ≠ none := by
        rw [represents.files,present]
        exact separate.present present
      simp [Files.perform,Files.open_,found,never_append]
    · simp [represents.length]
  | @on fd e file what opened found =>
    obtain ⟨i,d,place,entry,top,pos⟩ := represents.place opened
    have record : fs.files d.top = some file := by
      rw [represents.files,top]
      exact found
    refine ⟨[],fileOp i what,_,_,perform_access entry record what,?_,?_⟩
    · rw [pos,List.append_nil]
      exact .on place
    · rw [pos,List.append_nil]
      exact represents.update separate opened place entry top

/-- A run on the tables is a run of the model, operation by operation and result by result. -/
theorem Represents.replay (represents : Represents h ids fs) (separate : Separate h)
    (ran : replay perform h ops = some (answers, final)) :
    ∃ more ops' answers' fs', Projection.replay Files.perform fs ops' = some (answers', fs') ∧
      Represents final (ids ++ more) fs' ∧
      List.Forall₂ (fun here there => Matches (ids ++ more) here.1 here.2 there.1 there.2)
        (ops.zip answers) (ops'.zip answers') := by
  induction ops generalizing h ids fs answers with
  | nil =>
    obtain ⟨rfl,rfl⟩ := by simpa [Projection.replay] using ran
    exact ⟨[],[],[],fs,rfl,by simpa using represents,.nil⟩
  | cons op rest ih =>
    obtain ⟨answer,next,later,moved,ran',rfl⟩ := (replay_cons h final op rest answers).mp ran
    have done := (performs_iff h next op answer).mp moved
    obtain ⟨first,op',answer',middle,performed,matched,represents'⟩ :=
      represents.step separate done
    obtain ⟨more,ops',answers',fs',replayed,ended,others⟩ :=
      ih represents' (separate.step done) ran'
    rw [List.append_assoc] at ended others
    refine ⟨first ++ more,op' :: ops',answer' :: answers',fs',?_,ended,?_⟩
    · exact (replay_cons fs fs' op' ops' _).mpr ⟨answer',middle,answers',performed,replayed,rfl⟩
    · refine .cons ?_ others
      rw [← List.append_assoc]
      exact matched.extend more

/-- Every run of the kernel's tables is one of the model from its start. -/
theorem tables_refine (ops : List Op) (answers : List Answer) (final : Heap)
    (ran : replay perform boot ops = some (answers, final)) :
    ∃ ids ops' answers' fs, Projection.replay Files.perform Files.boot ops' = some (answers', fs) ∧
      Represents final ids fs ∧
      List.Forall₂ (fun here there => Matches ids here.1 here.2 there.1 there.2)
        (ops.zip answers) (ops'.zip answers') := by
  simpa using boot_represents.replay boot_separate ran

def twoDescriptors : List Op :=
  [.open_ "/a" 64 5 7, .open_ "/a" 0 6 9, .on 9 (.write [104, 105]), .on 7 (.read 2)]

theorem twoDescriptors_refine : ∃ answers final,
    replay perform boot twoDescriptors = some (answers, final) ∧
    ∃ ids ops' answers' fs, Projection.replay Files.perform Files.boot ops' = some (answers', fs) ∧
      Represents final ids fs ∧
      List.Forall₂ (fun here there => Matches ids here.1 here.2 there.1 there.2)
        (twoDescriptors.zip answers) (ops'.zip answers') := by
  obtain ⟨answers,final,ran⟩ : ∃ answers final,
      replay perform boot twoDescriptors = some (answers, final) := ⟨_,_,rfl⟩
  exact ⟨answers,final,ran,tables_refine twoDescriptors answers final ran⟩

end LuaKernel.Records
