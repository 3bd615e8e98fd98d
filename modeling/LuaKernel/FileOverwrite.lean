import LuaKernel.FileRuns

/-! A write at an offset. A positional write replaces the bytes under it; `sinsert` splits the
content one byte behind the offset and moves the rest up, and `read` returns one byte more than
it is asked for. Both go unseen at the end of the file. -/
namespace LuaKernel.Files

open Strings

def overwrite (content : Bytes) (off : Nat) (buf : Bytes) : Bytes :=
  content.take off ++ buf ++ content.drop (off + buf.length)

/-- `lseek(fd, off, SEEK_SET)` and `write(fd, buf)` -/
def writeAt (fd off : Nat) (buf : Bytes) (fs : FileSystem) : Option FileSystem := do
  let (_, fs) ← lseek fd off SEEK_SET fs
  let (_, fs) ← write fd buf fs
  return fs

/-- `lseek(fd, off, SEEK_SET)` and `read(fd, count)` -/
def readAt (fd off count : Nat) (fs : FileSystem) : Option (Value × FileSystem) := do
  let (_, fs) ← lseek fd off SEEK_SET fs
  read fd count fs

/-- The file at `path` is overwritten at the offset, and the bytes written are read back. -/
def Overwrites (fs : FileSystem) (fd : Nat) (path : String) (content : Bytes) (off : Nat)
    (buf : Bytes) : Prop :=
  ∃ written, writeAt fd off buf fs = some written ∧
    (written.files path).map (·.buf) = some (overwrite content off buf) ∧
    ∃ final, readAt fd off buf.length written = some (.str buf, final)

theorem overwrite_length (content buf : Bytes) (inside : off ≤ content.length) :
    (overwrite content off buf).length = max content.length (off + buf.length) := by
  simp only [overwrite,List.length_append,List.length_take,List.length_drop]
  omega

/-- Behind the content there is nothing to replace. -/
theorem overwrite_end (content buf : Bytes) :
    overwrite content content.length buf = content ++ buf := by simp [overwrite]

theorem Regular.sought (regular : Regular fs fd d file) (off : Nat) :
    lseek fd off SEEK_SET fs = some ((off : Int) + 1, seek fd (off + 1) fs) ∧
      Regular (seek fd (off + 1) fs) fd ⟨d.top, off + 1⟩ file :=
  ⟨by simp [lseek,regular.opened],by simp [seek,regular.opened],regular.record,regular.plain⟩

/-- The split lies behind the byte at the offset. -/
theorem writeAt_regular (regular : Regular fs fd d file) (off : Nat) (buf : Bytes) :
    ∃ written, writeAt fd off buf fs = some written ∧
      Regular written fd ⟨d.top, off + 1 + buf.length⟩
        ⟨file.buf.take (off + 1) ++ buf ++ file.buf.drop (off + 1), false⟩ := by
  obtain ⟨sought,here⟩ := regular.sought off
  have inserted : sinsert file.buf buf (off + 1) =
      file.buf.take (off + 1) ++ buf ++ file.buf.drop (off + 1) :=
    sinsert_inside file.buf buf (off + 1)
  have after := here.stored buf
  rw [inserted,regular.plain] at after
  exact ⟨_,by simp [writeAt,sought,write_stored here.opened here.record],after⟩

theorem readAt_regular (regular : Regular fs fd d file) (off count : Nat) :
    ∃ final, readAt fd off count fs =
      some (.str (window file.buf off (count + 1)), final) := by
  obtain ⟨sought,here⟩ := regular.sought off
  have bytes := strSub_forward file.buf (off + 1) count (by omega)
  rw [Int.natCast_succ,Int.add_sub_cancel] at bytes
  exact ⟨_,by simp [readAt,sought,read,here.opened,here.record,regular.plain,bytes]; rfl⟩

/-- What the write leaves has the wanted length only at the end, or when nothing is written;
and then the read returns a byte too many unless the file ends there. -/
theorem inserted_overwrites (content buf : Bytes) (inside : off ≤ content.length)
    (same : content.take (off + 1) ++ buf ++ content.drop (off + 1) = overwrite content off buf)
    (back : window (overwrite content off buf) off (buf.length + 1) = buf) :
    off = content.length := by
  have lengths := congrArg List.length same
  have bytes := congrArg List.length back
  rw [overwrite_length content buf inside] at lengths
  simp only [List.length_append,List.length_take,List.length_drop] at lengths
  rw [window_length,overwrite_length content buf inside] at bytes
  omega

/-- A write at an offset does what it is for exactly at the end of the file. -/
theorem write_overwrites_iff (fs : FileSystem) (fd : Nat) (d : Descriptor) (file : File)
    (regular : Regular fs fd d file) (off : Nat) (inside : off ≤ file.buf.length) (buf : Bytes) :
    Overwrites fs fd d.top file.buf off buf ↔ off = file.buf.length := by
  obtain ⟨written,wrote,after⟩ := writeAt_regular regular off buf
  obtain ⟨final,result⟩ := readAt_regular after off buf.length
  constructor
  · rintro ⟨_,wrote',content,_,back⟩
    obtain rfl := Option.some.inj (wrote.symm.trans wrote')
    have same : file.buf.take (off + 1) ++ buf ++ file.buf.drop (off + 1) =
        overwrite file.buf off buf := by simpa [after.record] using content
    have read_ : window (overwrite file.buf off buf) off (buf.length + 1) = buf := by
      have both := result.symm.trans back
      rw [same] at both
      obtain ⟨bytes,-⟩ := by simpa using both
      exact bytes
    exact inserted_overwrites file.buf buf inside same read_
  · rintro rfl
    have appended : file.buf.take (file.buf.length + 1) ++ buf ++
        file.buf.drop (file.buf.length + 1) = file.buf ++ buf := by
      rw [List.take_of_length_le (by omega),List.drop_eq_nil_of_le (by omega),List.append_nil]
    have rest : window (file.buf ++ buf) file.buf.length (buf.length + 1) = buf := by
      simp only [window,Int.toNat_natCast,List.drop_left,Int.toNat_neg_natCast,Nat.sub_zero]
      exact List.take_of_length_le (Nat.le_succ buf.length)
    rw [appended] at after result
    rw [rest] at result
    exact ⟨written,wrote,by simp [after.record,overwrite_end],final,result⟩

def sample : FileSystem := ⟨fun _ => some ⟨[97, 98, 99], false⟩, [⟨"/a", 1⟩], []⟩

theorem sample_regular : Regular sample 0 ⟨"/a", 1⟩ ⟨[97, 98, 99], false⟩ := ⟨rfl,rfl,rfl⟩

theorem appends_sample : Overwrites sample 0 "/a" [97, 98, 99] 3 [120, 121] :=
  (write_overwrites_iff sample 0 _ _ sample_regular 3 (by decide) [120, 121]).mpr rfl

/-- One byte over the first of three: it is put behind it, and reading one byte back gives
two. -/
theorem inserts_sample : ∃ written, writeAt 0 0 [120] sample = some written ∧
    (written.files "/a").map (·.buf) = some [97, 120, 98, 99] ∧
    (∃ final, readAt 0 0 1 written = some (.str [97, 120], final)) ∧
    ¬Overwrites sample 0 "/a" [97, 98, 99] 0 [120] := by
  obtain ⟨written,wrote,after⟩ := writeAt_regular sample_regular 0 [120]
  obtain ⟨final,result⟩ := readAt_regular after 0 1
  refine ⟨written,wrote,by rw [after.record]; rfl,⟨final,result⟩,?_⟩
  rintro ⟨_,wrote',content,-⟩
  obtain rfl := Option.some.inj (wrote.symm.trans wrote')
  rw [after.record] at content
  exact absurd content (by decide)

end LuaKernel.Files
