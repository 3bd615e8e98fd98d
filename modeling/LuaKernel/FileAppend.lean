import LuaKernel.FileRoundTrip

/-! A file opened for appending. `open` compares the masked flag with the wrong constant, so the
descriptor starts at the first position and the pieces go behind the first byte. -/
namespace LuaKernel.Files

open Strings

/-- The file at `path` is opened, the pieces are written, and its content is then the old one
followed by them. -/
def Appends (fs : FileSystem) (path : String) (flags : Nat) (content : Bytes)
    (pieces : List Bytes) : Prop :=
  ∃ fd opened written, open_ path flags fs = (some fd, opened) ∧
    writeAll fd pieces opened = some (pieces.map List.length, written) ∧
    (written.files path).map (·.buf) = some (content ++ pieces.flatten)

/-- An existing file is written behind its first byte, whatever the flags. -/
theorem open_writes (fs : FileSystem) (path : String) (flags : Nat) (pieces : List Bytes)
    (present : fs.files path = some file) :
    ∃ fd opened written, open_ path flags fs = (some fd, opened) ∧
      writeAll fd pieces opened = some (pieces.map List.length, written) ∧
      (written.files path).map (·.buf) =
        some (file.buf.take 1 ++ pieces.flatten ++ file.buf.drop 1) := by
  cases performed : open_ path flags fs with
  | mk fd opened =>
    have done := open_performs fs path flags
    rw [performed] at done
    cases done with
    | missing absent => cases absent.symm.trans present
    | created absent => cases absent.symm.trans present
    | reopened =>
      have entry : (fs.fds ++ [⟨path, 1⟩])[fs.fds.length]? = some ⟨path, 1⟩ := by simp
      have split := sinsert_inside file.buf pieces.flatten 1
      rw [Int.natCast_one] at split
      refine ⟨_,_,_,rfl,writeAll_stored pieces entry present Int.one_nonneg,?_⟩
      rw [stored_file,Option.map_some,split]

theorem appends_content (fs : FileSystem) (path : String) (flags : Nat) (pieces : List Bytes)
    (present : fs.files path = some file) :
    Appends fs path flags file.buf pieces ↔
      file.buf.take 1 ++ pieces.flatten ++ file.buf.drop 1 = file.buf ++ pieces.flatten := by
  obtain ⟨fd,opened,written,made,wrote,content⟩ := open_writes fs path flags pieces present
  constructor
  · rintro ⟨_,_,_,made',wrote',appended⟩
    obtain ⟨rfl,rfl⟩ := by simpa [made] using made'
    obtain rfl := (Prod.mk.inj (Option.some.inj (wrote.symm.trans wrote'))).2
    exact Option.some.inj (content.symm.trans appended)
  · intro same
    exact ⟨fd,opened,written,made,wrote,same ▸ content⟩

/-- Opened with O_APPEND, a file is appended to exactly when what is written can change places
with what follows the first byte. -/
theorem appends_iff (fs : FileSystem) (path : String) (file : File)
    (present : fs.files path = some file) (flags : Nat) (pieces : List Bytes) :
    Appends fs path (flags ||| O_APPEND) file.buf pieces ↔
      pieces.flatten ++ file.buf.drop 1 = file.buf.drop 1 ++ pieces.flatten := by
  have halves : file.buf ++ pieces.flatten =
      file.buf.take 1 ++ (file.buf.drop 1 ++ pieces.flatten) := by
    rw [← List.append_assoc,List.take_append_drop]
  rw [appends_content fs path (flags ||| O_APPEND) pieces present,halves,List.append_assoc]
  exact List.append_right_inj _

def oneByte : FileSystem := ⟨fun _ => some ⟨[97], false⟩, [], []⟩

theorem oneByte_appends : Appends oneByte "/a" O_APPEND [97] [[120], [], [121, 122]] :=
  (appends_iff oneByte "/a" ⟨[97], false⟩ rfl 0 _).mpr rfl

/-- `x` appended to `abc` goes behind the first byte. -/
theorem three_bytes_not_appended :
    ∃ fs : FileSystem, fs.files "/a" = some ⟨[97, 98, 99], false⟩ ∧
      (∃ fd opened written, open_ "/a" O_APPEND fs = (some fd, opened) ∧
        write fd [120] opened = some (1, written) ∧
        (written.files "/a").map (·.buf) = some [97, 120, 98, 99]) ∧
      ¬Appends fs "/a" O_APPEND [97, 98, 99] [[120]] := by
  have present : (⟨fun _ => some ⟨[97, 98, 99], false⟩, [], []⟩ : FileSystem).files "/a" =
      some ⟨[97, 98, 99], false⟩ := rfl
  refine ⟨_,present,⟨0,_,_,rfl,rfl,rfl⟩,?_⟩
  rw [appends_content _ "/a" O_APPEND [[120]] present]
  decide

end LuaKernel.Files
