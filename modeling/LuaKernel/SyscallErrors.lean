import LuaKernel.Descriptors

/-! System calls on numbers that are no descriptors. `handle_syscall` passes whatever the
registry holds under the number to the Lua function, which indexes it: a value without fields
is an error, and `lseek` takes a table for a descriptor. -/
namespace LuaKernel.Syscalls

open Strings References Runs

def IsDescriptor : Object → Prop
  | .descriptor _ => True
  | _ => False

/-- The number is a descriptor for the operation; for `write` 1 is. -/
def Valid (s : State) : Call → Prop
  | .read fd _ => fd ≠ 0 ∧ IsDescriptor (s.registry fd)
  | .write fd _ => fd = 1 ∨ IsDescriptor (s.registry fd)
  | .lseek fd _ _ => IsDescriptor (s.registry fd)
  | _ => True

/-- A value is returned; on what is no descriptor it is negative, and neither a file nor a
descriptor changes. -/
def Meets (s : State) (call : Call) : Prop :=
  ∃ value next, handle s call = some (value, next) ∧
    (¬Valid s call → value < 0 ∧ next.fs.files = s.fs.files ∧ next.fs.fds = s.fs.fds)

/-- A table under the number is moved as a descriptor would be, and the result happens to be
negative. -/
def TableNegative (s : State) (offset whence : Int) : Object → Prop
  | .table id => (whence = Files.SEEK_SET ∧ toInt (offset + 1) < 0) ∨
      (whence = Files.SEEK_CUR ∧ ∃ pos, s.tables id = some pos ∧ toInt (pos + offset) < 0)
  | _ => False

def Storable (s : State) (buf : Bytes) : Object → Prop
  | .descriptor i => ∃ d file, s.fs.fds[i]? = some d ∧ s.fs.files d.top = some file ∧
      stringSize (Files.sinsert file.buf buf d.pos).length ≤ 0x40000000
  | _ => False

def Serviceable (s : State) : Call → Prop
  | .read fd _ => fd ≠ 0 ∧ IsDescriptor (s.registry fd)
  | .write fd buf => stringSize buf.length ≤ 0x40000000 ∧
      (fd = 1 ∨ Storable s buf (s.registry fd))
  | .lseek fd offset whence => IsDescriptor (s.registry fd) ∨
      (whence ≠ Files.SEEK_SET ∧ whence ≠ Files.SEEK_CUR) ∨
        TableNegative s offset whence (s.registry fd)
  | _ => True

structure Linked (s : State) : Prop where
  known : ∀ slot, Known s (s.registry slot)
  present : Files.Present s.fs

theorem Linked.lookup (linked : Linked s) (stored : s.registry fd = .descriptor i) :
    ∃ d file, s.fs.fds[i]? = some d ∧ s.fs.files d.top = some file := by
  have known := linked.known fd
  rw [stored] at known
  have entry : s.fs.fds[i]? = some (s.fs.fds.get ⟨i, known⟩) := List.getElem?_eq_getElem known
  obtain ⟨file,record⟩ := Option.ne_none_iff_exists'.mp
    (linked.present _ (List.mem_of_getElem? entry))
  exact ⟨_,file,entry,record⟩

theorem read_descriptor (linked : Linked s) (stored : s.registry fd = .descriptor i) (count : Nat) :
    ∃ result, read count s (.descriptor i) = some result := by
  obtain ⟨d,file,entry,record⟩ := linked.lookup stored
  cases special : file.device <;>
    exact ⟨_,by simp [read,Files.sysRead,Files.read,entry,record,special]; rfl⟩

theorem write_descriptor (linked : Linked s) (stored : s.registry fd = .descriptor i)
    (buf : Bytes) : (∃ result, write buf s (.descriptor i) = some result) ↔
      Storable s buf (.descriptor i) := by
  obtain ⟨d,file,entry,record⟩ := linked.lookup stored
  have after : ∀ pos files, Files.contentOf i (Files.seek i pos { s.fs with files := files }) =
      (files d.top).map (·.buf) := by
    intro pos files
    simp [Files.contentOf,Files.seek,entry]
  have once : Storable s buf (.descriptor i) ↔
      stringSize (Files.sinsert file.buf buf d.pos).length ≤ 0x40000000 := by
    constructor
    · rintro ⟨_,_,entry',record',fits⟩
      obtain rfl := Option.some.inj (entry.symm.trans entry')
      obtain rfl := Option.some.inj (record.symm.trans record')
      exact fits
    · exact fun fits => ⟨d,file,entry,record,fits⟩
  rw [once]
  by_cases fits : stringSize (Files.sinsert file.buf buf d.pos).length ≤ 0x40000000 <;>
    simp [write,Files.write,entry,record,after,pushlstring,fits]

theorem lseek_descriptor (linked : Linked s) (stored : s.registry fd = .descriptor i)
    (offset whence : Int) : ∃ result, lseek (.descriptor i) offset whence s = some result := by
  obtain ⟨d,file,entry,-⟩ := linked.lookup stored
  rw [lseek]
  split
  · exact ⟨_,by simp [setPos,entry]; rfl⟩
  · split
    · exact ⟨_,by simp [getPos,setPos,entry]; rfl⟩
    · exact ⟨_,rfl⟩

theorem meets_error (failed : handle s call = none) : ¬Meets s call := by
  rintro ⟨_,_,done,-⟩
  rw [failed] at done
  contradiction

theorem meets_valid (done : handle s call = some result) (valid : Valid s call) :
    Meets s call := ⟨result.1,result.2,done,fun invalid => absurd valid invalid⟩

theorem meets_invalid (done : handle s call = some (value, next)) (invalid : ¬Valid s call)
    (files : next.fs.files = s.fs.files) (fds : next.fs.fds = s.fs.fds) :
    Meets s call ↔ value < 0 := by
  constructor
  · rintro ⟨_,_,done',law⟩
    obtain ⟨rfl,rfl⟩ := by simpa using done.symm.trans done'
    exact (law invalid).1
  · exact fun negative => ⟨value,next,done,fun _ => ⟨negative,files,fds⟩⟩

theorem read_meets (linked : Linked s) (fd : Int) (count : Nat) :
    Meets s (.read fd count) ↔ Serviceable s (.read fd count) := by
  by_cases stdin : fd = 0
  · have failed : handle s (.read fd count) = none := by simp [handle,read,stdin]
    exact iff_of_false (meets_error failed) (fun good => good.1 stdin)
  · cases stored : s.registry fd with
    | descriptor i =>
      obtain ⟨result,done⟩ := read_descriptor linked stored count
      have valid : Valid s (.read fd count) := ⟨stdin,by rw [stored]; trivial⟩
      exact iff_of_true (meets_valid (by simp [handle,stdin,stored,done]; rfl) valid) valid
    | _ =>
      have failed : handle s (.read fd count) = none := by simp [handle,read,stdin,stored]
      exact iff_of_false (meets_error failed) (by simp [Serviceable,stored,IsDescriptor])

/-- A string that cannot be made raises an error before anything else. -/
theorem write_long (s : State) (fd : Int) (long : ¬stringSize buf.length ≤ 0x40000000) :
    handle s (.write fd buf) = none := by
  simp [handle,pushlstring,long]

theorem write_made (s : State) (fd : Int) (fits : stringSize buf.length ≤ 0x40000000) :
    handle s (.write fd buf) = (write buf s (if fd ≠ 1 then s.registry fd else .number fd)).map
      fun (count, s) => (toInt count, s) := by
  simp only [handle,pushlstring,fits,↓reduceIte,Option.bind_eq_bind,Option.bind_some]
  cases write buf s (if fd ≠ 1 then s.registry fd else .number fd) <;> rfl

theorem write_meets (linked : Linked s) (fd : Int) (buf : Bytes) :
    Meets s (.write fd buf) ↔ Serviceable s (.write fd buf) := by
  by_cases fits : stringSize buf.length ≤ 0x40000000
  swap
  · exact iff_of_false (meets_error (write_long s fd fits)) fun good => fits good.1
  have made := write_made s fd fits
  rw [Serviceable,and_iff_right fits]
  by_cases stdout : fd = 1
  · have done : handle s (.write fd buf) = some (toInt buf.length,
        { s with fs := { s.fs with stdout := s.fs.stdout ++ buf } }) := by
      rw [made,if_neg (not_not_intro stdout),stdout]
      rfl
    exact iff_of_true (meets_valid done (Or.inl stdout)) (Or.inl stdout)
  rw [or_iff_right stdout]
  rw [if_pos stdout] at made
  cases stored : s.registry fd with
  | descriptor i =>
    have valid : Valid s (.write fd buf) := Or.inr (by rw [stored]; trivial)
    rw [stored] at made
    rw [← write_descriptor linked stored buf]
    constructor
    · rintro ⟨_,_,done,-⟩
      rw [made] at done
      obtain ⟨result,done,-⟩ := Option.map_eq_some_iff.mp done
      exact ⟨result,done⟩
    · rintro ⟨result,done⟩
      rw [done] at made
      exact meets_valid made valid
  | number n =>
    by_cases one : n = 1
    · have done : handle s (.write fd buf) = some (toInt buf.length,
          { s with fs := { s.fs with stdout := s.fs.stdout ++ buf } }) := by
        simp [made,write,stored,one]
      rw [meets_invalid done (by simp [Valid,stdout,stored,IsDescriptor]) rfl rfl]
      refine iff_of_false (fun negative => ?_) id
      rw [toInt] at negative
      rw [stringSize] at fits
      split at negative <;> omega
    · have failed : handle s (.write fd buf) = none := by simp [made,write,stored,one]
      exact iff_of_false (meets_error failed) id
  | nil | atom | table =>
    have failed : handle s (.write fd buf) = none := by simp [made,write,stored]
    exact iff_of_false (meets_error failed) id

theorem lseek_table_meets {id : Nat} (stored : s.registry fd = .table id) (offset whence : Int)
    (supported : whence = Files.SEEK_SET ∨ whence = Files.SEEK_CUR) :
    Meets s (.lseek fd offset whence) ↔ TableNegative s offset whence (s.registry fd) := by
  have invalid : ¬Valid s (.lseek fd offset whence) := by simp [Valid,stored,IsDescriptor]
  rcases supported with rfl | rfl
  · have done : handle s (.lseek fd offset Files.SEEK_SET) = some (toInt (offset + 1),
        { s with tables := Function.update s.tables id (some (offset + 1)) }) := by
      simp [handle,lseek,setPos,stored]
    rw [meets_invalid done invalid rfl rfl]
    simp [TableNegative,stored,Files.SEEK_SET,Files.SEEK_CUR]
  · have other : Files.SEEK_CUR ≠ Files.SEEK_SET := by decide
    cases field : s.tables id with
    | none =>
      have failed : handle s (.lseek fd offset Files.SEEK_CUR) = none := by
        simp [handle,lseek,getPos,stored,field,other]
      exact iff_of_false (meets_error failed) (by simp [TableNegative,stored,field,other])
    | some pos =>
      have done : handle s (.lseek fd offset Files.SEEK_CUR) = some (toInt (pos + offset),
          { s with tables := Function.update s.tables id (some (pos + offset)) }) := by
        simp [handle,lseek,getPos,setPos,stored,field,other]
      rw [meets_invalid done invalid rfl rfl]
      simp [TableNegative,stored,field,other]

theorem lseek_meets (linked : Linked s) (fd offset whence : Int) :
    Meets s (.lseek fd offset whence) ↔ Serviceable s (.lseek fd offset whence) := by
  by_cases supported : whence = Files.SEEK_SET ∨ whence = Files.SEEK_CUR
  · cases stored : s.registry fd with
    | descriptor i =>
      obtain ⟨result,done⟩ := lseek_descriptor linked stored offset whence
      have valid : IsDescriptor (s.registry fd) := by
        rw [stored]
        trivial
      exact iff_of_true (meets_valid (by simp [handle,stored,done]; rfl) valid) (Or.inl valid)
    | table id =>
      rw [lseek_table_meets stored offset whence supported,Serviceable,← not_or]
      simp [supported,stored,IsDescriptor]
    | _ =>
      have failed : handle s (.lseek fd offset whence) = none := by
        rcases supported with rfl | rfl <;>
          simp [handle,lseek,getPos,setPos,stored,Files.SEEK_SET,Files.SEEK_CUR]
      refine iff_of_false (meets_error failed) ?_
      rw [Serviceable,← not_or]
      simp [supported,stored,IsDescriptor,TableNegative]
  · have unsupported := not_or.mp supported
    have done : handle s (.lseek fd offset whence) = some (-1, s) := by
      simp [handle,lseek,unsupported,toInt]
    exact iff_of_true ⟨-1,s,done,fun _ => ⟨by decide,rfl,rfl⟩⟩ (Or.inr (Or.inl unsupported))

theorem meets_iff (s : State) (call : Call) (linked : Linked s) :
    Meets s call ↔ Serviceable s call := by
  cases call with
  | lseek fd offset whence => exact lseek_meets linked fd offset whence
  | read fd count => exact read_meets linked fd count
  | write fd buf => exact write_meets linked fd buf
  | _ => exact iff_of_true (meets_valid rfl trivial) trivial

theorem Known.mono (known : Known s value) (length : s.fs.fds.length ≤ next.fs.fds.length) :
    Known next value := by
  cases value with
  | descriptor i => exact Nat.lt_of_lt_of_le known length
  | _ => trivial

theorem Linked.frame (linked : Linked s) (frame : Frame s next) : Linked next where
  known slot := by
    rw [frame.registry]
    exact (linked.known slot).mono frame.length
  present := frame.present linked.present

/-- The value that `open` returns refers to the descriptor it has added. -/
theorem openValue_known (s : State) (pathname : String) (flags : Nat)
    (fds : next.fs = (Files.open_ pathname flags s.fs).2) :
    Known next (openValue (Files.open_ pathname flags s.fs).1) := by
  have done := Files.open_performs s.fs pathname flags
  cases result : Files.open_ pathname flags s.fs with
  | mk fd fs =>
    rw [result] at done fds
    cases done with
    | missing => trivial
    | created | reopened => simp [openValue,Known,fds]

theorem Linked.step (linked : Linked s) (moved : step s call = some next) : Linked next := by
  cases step_moves s next moved with
  | @opened len pathname flags =>
    have performs := Files.open_performs s.fs pathname flags
    refine ⟨fun slot => ?_,performs.present linked.present⟩
    rcases luaLRef_slot s.registry (openValue (Files.open_ pathname flags s.fs).1) len slot with
      new | ⟨key,old⟩
    · simp only [new]
      exact openValue_known s pathname flags rfl
    · simp only [old]
      exact (linked.known key).mono performs.length
  | framed frame => exact linked.frame frame
  | @stored len value _ known =>
    refine ⟨fun slot => ?_,linked.present⟩
    rcases luaLRef_slot s.registry value len slot with new | ⟨key,old⟩
    · simp only [new]
      exact known.mono (Nat.le_refl _)
    · simp only [old]
      exact (linked.known key).mono (Nat.le_refl _)
  | @released ref =>
    refine ⟨fun slot => ?_,linked.present⟩
    rcases luaLUnref_slot s.registry ref slot with link | ⟨key,old⟩
    · simp only [link]
      trivial
    · simp only [old]
      exact (linked.known key).mono (Nat.le_refl _)

/-- Along every sequence of calls the law holds exactly when each is one that comes back as it
should. -/
theorem syscalls_meet_iff (start : State) (linked : Linked start) (calls : List Call) :
    Along step Meets start calls ↔ Along step Serviceable start calls :=
  along_iff meets_iff (fun _ _ _ linked _ moved => linked.step moved) linked calls

theorem boot_linked : Linked boot where
  known slot := by
    simp only [boot]
    split
    · trivial
    · split <;> trivial
  present := nofun

/-- A file created, written and read back. -/
theorem created_file_meets :
    Along step Meets boot [.open_ "/a" 64 2, .write 3 [104, 105], .lseek 3 0 0, .read 3 2] := by
  rw [syscalls_meet_iff boot boot_linked,along_cons rfl,along_cons rfl,along_cons rfl]
  have three : (3 : Int) ≠ 0 := by decide
  refine ⟨trivial,⟨by decide,Or.inr ⟨⟨"/a", 1⟩,⟨[], false⟩,rfl,rfl,by decide⟩⟩,Or.inl trivial,
    ⟨three,trivial⟩,fun _ _ => trivial⟩

/-- Reading from standard input is an error, as is writing under a number that holds nothing;
2 holds the globals, which take a move; and of 2^30 bytes no string can be made. -/
theorem numbers_without_descriptor :
    handle boot (.read 0 1) = none ∧ handle boot (.write 3 [120]) = none ∧
      (handle boot (.lseek 2 5 0)).map (·.1) = some 6 ∧
      (∀ buf : Bytes, buf.length = 2 ^ 30 → handle boot (.write 1 buf) = none) ∧
      ¬Along step Meets boot [.read 0 1] ∧ ¬Along step Meets boot [.write 3 [120]] ∧
      ¬Along step Meets boot [.lseek 2 5 0] := by
  refine ⟨rfl,rfl,rfl,fun buf length => write_long _ _ (by simp [stringSize,length]),?_,?_,?_⟩
  · exact fun along => meets_error rfl along.1
  · exact fun along => meets_error rfl along.1
  · intro along
    have globals : boot.registry 2 = .table 0 := rfl
    rcases (lseek_table_meets globals 5 0 (Or.inl rfl)).mp along.1 with ⟨-,negative⟩ | ⟨other,-⟩
    · exact absurd negative (by decide)
    · exact absurd other (by decide)

end LuaKernel.Syscalls
