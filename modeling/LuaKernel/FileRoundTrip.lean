import LuaKernel.FileRuns

/-! A file written piece by piece. The pieces leave what one write of all of them leaves, at any
position from 0 on, for `sinsert` splits the grown content where the last piece ended. Positions
count from 1, so in a new file the next write stands one past the content, and `sinsert` appends
there. -/
namespace LuaKernel.Files

open Strings

def writeAll (fd : Nat) : List Bytes → FileSystem → Option (List Nat × FileSystem)
  | [], fs => some ([], fs)
  | buf :: rest, fs => do
    let (count, fs) ← write fd buf fs
    let (counts, fs) ← writeAll fd rest fs
    return (count :: counts, fs)

theorem sinsert_nil (str : Bytes) (pos : Nat) : sinsert str [] pos = str := by
  rw [sinsert_inside,List.append_nil,List.take_append_drop]

/-- The second piece goes behind the first, also from beyond the end. -/
theorem sinsert_sinsert (str first second : Bytes) (pos : Nat) :
    sinsert (sinsert str first pos) second (pos + first.length) =
      sinsert str (first ++ second) pos := by
  have cast : ((pos : Int) + first.length) = ((pos + first.length : Nat) : Int) := by omega
  rw [cast,sinsert_inside,sinsert_inside,sinsert_inside]
  by_cases inside : pos ≤ str.length
  · have before : (str.take pos ++ first).length = pos + first.length := by
      rw [List.length_append,List.length_take,Nat.min_eq_left inside]
    rw [← before,List.take_left,List.drop_left]
    simp
  · rw [List.take_of_length_le (by omega : str.length ≤ pos),
      List.drop_eq_nil_of_le (by omega : str.length ≤ pos),List.append_nil,
      List.take_of_length_le (by simp; omega),List.drop_eq_nil_of_le (by simp; omega)]
    simp

theorem stored_nil (opened : fs.fds[fd]? = some d) (record : fs.files d.top = some file)
    (inside : 0 ≤ d.pos) : stored fd d file [] fs = fs := by
  obtain ⟨pos,at_⟩ := Int.eq_ofNat_of_zero_le inside
  have same : sinsert file.buf [] d.pos = file.buf := by rw [at_,sinsert_nil]
  have files : Function.update fs.files d.top (some file) = fs.files :=
    record ▸ Function.update_eq_self d.top fs.files
  rw [stored,same,files,List.length_nil,Int.natCast_zero,Int.add_zero]
  exact seek_self opened

theorem stored_stored (fd : Nat) (d : Descriptor) (file : File) (first second : Bytes)
    (fs : FileSystem) (inside : 0 ≤ d.pos) :
    stored fd { d with pos := d.pos + first.length }
        { file with buf := sinsert file.buf first d.pos } second (stored fd d file first fs) =
      stored fd d file (first ++ second) fs := by
  obtain ⟨pos,at_⟩ := Int.eq_ofNat_of_zero_le inside
  have both : sinsert (sinsert file.buf first d.pos) second (d.pos + first.length) =
      sinsert file.buf (first ++ second) d.pos := by
    rw [at_]
    exact sinsert_sinsert file.buf first second pos
  have behind : d.pos + first.length + second.length =
      d.pos + ((first ++ second).length : Int) := by
    rw [List.length_append]
    omega
  simp only [stored,both,behind]
  simp [seek,List.modify_modify_eq,Function.comp_def]

theorem writeAll_stored (pieces : List Bytes) (opened : fs.fds[fd]? = some d)
    (record : fs.files d.top = some file) (inside : 0 ≤ d.pos) :
    writeAll fd pieces fs =
      some (pieces.map List.length, stored fd d file pieces.flatten fs) := by
  induction pieces generalizing fs d file with
  | nil => rw [List.flatten_nil,stored_nil opened record inside]; rfl
  | cons buf rest ih =>
    have ahead : 0 ≤ d.pos + (buf.length : Int) := by omega
    have others := ih (stored_fds opened file buf) (stored_file fd d file buf fs) ahead
    rw [stored_stored fd d file buf rest.flatten fs inside] at others
    simp [writeAll,write_stored opened record,others]

/-- Descriptor `fd` stands behind the content of the regular file at `path`. -/
structure Behind (fs : FileSystem) (fd : Nat) (path : String) (content : Bytes) : Prop where
  opened : fs.fds[fd]? = some ⟨path, content.length + 1⟩
  record : fs.files path = some ⟨content, false⟩

theorem open_behind (fs : FileSystem) (path : String) (absent : fs.files path = none)
    (create : flags &&& O_CREAT = O_CREAT) :
    ∃ fd next, open_ path flags fs = (some fd, next) ∧ Behind next fd path [] := by
  cases performed : open_ path flags fs with
  | mk fd next =>
    have done := open_performs fs path flags
    rw [performed] at done
    cases done with
    | missing _ noCreate => exact absurd create noCreate
    | created => exact ⟨_,_,rfl,by simp,by simp⟩
    | reopened present => simp [absent] at present

theorem writeAll_behind (pieces : List Bytes) (behind : Behind fs fd path content) :
    ∃ next, writeAll fd pieces fs = some (pieces.map List.length, next) ∧
      Behind next fd path (content ++ pieces.flatten) := by
  have appended : sinsert content pieces.flatten (content.length + 1) =
      content ++ pieces.flatten := by
    rw [← Int.natCast_succ,sinsert_inside,List.take_of_length_le (by omega),
      List.drop_eq_nil_of_le (by omega),List.append_nil]
  have wrote := writeAll_stored pieces behind.opened behind.record (by dsimp only; omega)
  refine ⟨_,wrote,?_,?_⟩
  · rw [stored_fds behind.opened,List.length_append]
    simp only [Option.some.injEq,Descriptor.mk.injEq,true_and]
    omega
  · rw [stored_file _ ⟨path, content.length + 1⟩,appended]

end LuaKernel.Files
