import LuaKernel.Grid
import LuaKernel.Multiboot

/-! `putpixel`, `clear_screen` and `swap_buffers`. Drawing goes to a buffer of its own, addressed
from 0, and a swap copies it to `fbmem` and clears it. Offsets are computed in 32 bits. -/
namespace LuaKernel.Framebuffer

open Bytes Multiboot Grid

structure State where
  displayBuffer : Memory
  fbmem : Memory

inductive Call
  | putpixel (x y r g b : UInt32)
  | clearScreen
  | swapBuffers

def displayBufferLen (modeinfo : List UInt8) : Nat :=
  yResolution modeinfo * bytesPerScanLine modeinfo

/-- Outside the buffer nothing is written: `trap` is a breakpoint of the emulator and does
nothing else. -/
def putpixel (modeinfo : List UInt8) (x y r g b : UInt32) (s : State) : State :=
  let bytesPerPixel := UInt32.ofNat (bitsPerPixel modeinfo / 8)
  let ptr := (y * UInt32.ofNat (bytesPerScanLine modeinfo) + x * bytesPerPixel).toNat
  if ptr < yResolution modeinfo * bytesPerScanLine modeinfo then
    { s with displayBuffer := put s.displayBuffer ptr [b.toUInt8, g.toUInt8, r.toUInt8, 0] }
  else s

def clearScreen (modeinfo : List UInt8) (s : State) : State :=
  { s with displayBuffer := fill s.displayBuffer 0 (displayBufferLen modeinfo) }

def swapBuffers (modeinfo : List UInt8) (s : State) : State :=
  clearScreen modeinfo
    { s with fbmem := transfer s.fbmem s.displayBuffer (displayBufferLen modeinfo) }

def step (modeinfo : List UInt8) (s : State) : Call → State
  | .putpixel x y r g b => putpixel modeinfo x y r g b s
  | .clearScreen => clearScreen modeinfo s
  | .swapBuffers => swapBuffers modeinfo s

def run (modeinfo : List UInt8) (s : State) (calls : List Call) : State :=
  calls.foldl (step modeinfo) s

/-- A mode of four bytes a pixel whose lines hold a row, with a buffer that 32 bits address. -/
structure Direct (modeinfo : List UInt8) : Prop where
  depth : bitsPerPixel modeinfo = 32
  line : 4 * xResolution modeinfo ≤ bytesPerScanLine modeinfo
  small : yResolution modeinfo * bytesPerScanLine modeinfo < 2 ^ 31

def OnScreen (modeinfo : List UInt8) : Call → Prop
  | .putpixel x y r g b => x.toNat < xResolution modeinfo ∧ y.toNat < yResolution modeinfo ∧
      r.toNat ≤ 255 ∧ g.toNat ≤ 255 ∧ b.toNat ≤ 255
  | _ => True

structure Colour where
  r : Nat
  g : Nat
  b : Nat

/-- The colour last put on a pixel since a clear or a swap; the latest call comes first. -/
def lastPut (x y : Nat) : List Call → Option Colour
  | [] => none
  | .putpixel x' y' r g b :: earlier =>
    if x'.toNat = x ∧ y'.toNat = y then some ⟨r.toNat, g.toNat, b.toNat⟩ else lastPut x y earlier
  | .clearScreen :: _ => none
  | .swapBuffers :: _ => none

def pixel : Option Colour → List Nat
  | none => [0, 0, 0, 0]
  | some colour => [colour.b, colour.g, colour.r, 0]

theorem field16_lt (block : List UInt8) (offset : Nat) : field16 block offset < 2 ^ 16 := by
  have low := (block.getD offset 0).toNat_lt
  have high := (block.getD (offset + 1) 0).toNat_lt
  rw [field16]
  omega

/-- Where a pixel lies: the 32 bits of the code do not overflow. -/
theorem offset_cell (direct : Direct modeinfo) (x y : UInt32)
    (column : x.toNat < xResolution modeinfo) (row : y.toNat < yResolution modeinfo) :
    (y * UInt32.ofNat (bytesPerScanLine modeinfo) +
      x * UInt32.ofNat (bitsPerPixel modeinfo / 8)).toNat =
        cell (bytesPerScanLine modeinfo) 4 x.toNat y.toNat := by
  have line := direct.line
  have inside := @cell_inside 4 x.toNat _ y.toNat _ (by omega : _ ≤ bytesPerScanLine modeinfo) row
  have small := direct.small
  have bound : bytesPerScanLine modeinfo < 2 ^ 16 := field16_lt modeinfo 16
  rw [cell] at inside ⊢
  simp only [UInt32.toNat_add,UInt32.toNat_mul,UInt32.toNat_ofNat',direct.depth]
  rw [Nat.mod_eq_of_lt (by omega : bytesPerScanLine modeinfo < 2 ^ 32)]
  generalize y.toNat * bytesPerScanLine modeinfo = start at *
  generalize yResolution modeinfo * bytesPerScanLine modeinfo = len at *
  omega

def Shows (modeinfo : List UInt8) (history : List Call) (m : Memory) : Prop :=
  ∀ x y, x < xResolution modeinfo → y < yResolution modeinfo →
    (copy m (cell (bytesPerScanLine modeinfo) 4 x y) 4).map UInt8.toNat =
      pixel (lastPut x y history)

theorem pixel_inside (direct : Direct modeinfo) (column : x < xResolution modeinfo)
    (row : y < yResolution modeinfo) :
    cell (bytesPerScanLine modeinfo) 4 x y + 4 ≤ displayBufferLen modeinfo := by
  have line := direct.line
  exact cell_inside (by omega) row

theorem clear_shows (direct : Direct modeinfo) (m : Memory)
    (empty : ∀ x y, lastPut x y history = none) :
    Shows modeinfo history (fill m 0 (displayBufferLen modeinfo)) := by
  intro x y column row
  rw [copy_fill m 0 4 (pixel_inside direct column row),empty]
  rfl

theorem byte_toNat (value : UInt32) (bound : value.toNat ≤ 255) :
    value.toUInt8.toNat = value.toNat := by
  rw [UInt32.toNat_toUInt8]
  omega

theorem putpixel_shows (direct : Direct modeinfo) (s : State)
    (shows : Shows modeinfo history s.displayBuffer)
    (on : OnScreen modeinfo (.putpixel x y r g b)) :
    Shows modeinfo (.putpixel x y r g b :: history)
      (putpixel modeinfo x y r g b s).displayBuffer := by
  obtain ⟨column,row,red,green,blue⟩ := on
  have line := direct.line
  have inside := pixel_inside direct column row
  rw [displayBufferLen] at inside
  intro x' y' column' row'
  simp only [putpixel]
  rw [offset_cell direct x y column row,if_pos (by omega)]
  by_cases here : x.toNat = x' ∧ y.toNat = y'
  · obtain ⟨rfl,rfl⟩ := here
    rw [lastPut,if_pos ⟨rfl,rfl⟩]
    have self : copy (put s.displayBuffer _ [b.toUInt8, g.toUInt8, r.toUInt8, 0])
        (cell (bytesPerScanLine modeinfo) 4 x.toNat y.toNat) 4 =
          [b.toUInt8, g.toUInt8, r.toUInt8, 0] := copy_put_self _ _ _
    rw [self]
    simp only [List.map_cons,List.map_nil,byte_toNat b blue,byte_toNat g green,byte_toNat r red]
    rfl
  · rw [lastPut,if_neg here,← shows x' y' column' row']
    have apart := @cell_apart 4 x.toNat _ x' y.toNat y' (by omega : _ ≤ bytesPerScanLine modeinfo)
      (by omega) here
    rw [copy_put_apart _ _ _ apart]

theorem step_shows (direct : Direct modeinfo) (s : State)
    (shows : Shows modeinfo history s.displayBuffer) (on : OnScreen modeinfo call) :
    Shows modeinfo (call :: history) (step modeinfo s call).displayBuffer := by
  cases call with
  | putpixel x y r g b => exact putpixel_shows direct s shows on
  | clearScreen => exact clear_shows direct s.displayBuffer fun _ _ => rfl
  | swapBuffers => exact clear_shows direct s.displayBuffer fun _ _ => rfl

theorem run_shows (direct : Direct modeinfo) (calls : List Call) (s : State)
    (shows : Shows modeinfo history s.displayBuffer)
    (on : ∀ call ∈ calls, OnScreen modeinfo call) :
    Shows modeinfo (calls.reverse ++ history) (run modeinfo s calls).displayBuffer := by
  induction calls generalizing s history with
  | nil => exact shows
  | cons call rest ih =>
    rw [List.reverse_cons,List.append_assoc]
    exact ih (step modeinfo s call) (step_shows direct s shows (on call (by simp)))
      fun other member => on other (List.mem_cons_of_mem _ member)

/-- After a swap each pixel of the screen is the one last put there since the swap or clear
before it, and black if there was none. The buffer starts cleared. -/
theorem swap_shows_last_put (modeinfo : List UInt8) (direct : Direct modeinfo) (s : State)
    (calls : List Call) (on : ∀ call ∈ calls, OnScreen modeinfo call) (x y : Nat)
    (column : x < xResolution modeinfo) (row : y < yResolution modeinfo) :
    (copy (run modeinfo (clearScreen modeinfo s) (calls ++ [.swapBuffers])).fbmem
      (y * bytesPerScanLine modeinfo + 4 * x) 4).map UInt8.toNat =
        pixel (lastPut x y calls.reverse) := by
  have cleared : Shows modeinfo [] (clearScreen modeinfo s).displayBuffer :=
    clear_shows direct s.displayBuffer fun _ _ => rfl
  have drawn := run_shows direct calls (clearScreen modeinfo s) cleared on x y column row
  rw [List.append_nil] at drawn
  have swapped := copy_transfer (run modeinfo (clearScreen modeinfo s) calls).fbmem
    (run modeinfo (clearScreen modeinfo s) calls).displayBuffer 4
    (pixel_inside direct column row)
  rw [← drawn,← swapped,run,List.foldl_append]
  rfl

def smallMode : List UInt8 :=
  List.replicate 16 0 ++ [12, 0, 2, 0, 2, 0, 0, 0, 0, 32]

theorem smallMode_direct : Direct smallMode := ⟨by decide,by decide,by decide⟩

/-- A pixel drawn over after a clear. -/
theorem smallMode_shows :
    (copy (run smallMode (clearScreen smallMode ⟨fun _ => 1, fun _ => 2⟩)
      [.putpixel 1 1 9 9 9, .clearScreen, .putpixel 1 1 7 8 9, .putpixel 0 1 1 2 3,
        .swapBuffers]).fbmem 16 4).map UInt8.toNat = [9, 8, 7, 0] :=
  swap_shows_last_put smallMode smallMode_direct _
    [.putpixel 1 1 9 9 9, .clearScreen, .putpixel 1 1 7 8 9, .putpixel 0 1 1 2 3]
    (by simp [OnScreen]; decide) 1 1 (by decide) (by decide)

end LuaKernel.Framebuffer
