import LuaKernel.Descriptors
import LuaKernel.Runs
import LuaKernel.Strings

/-! `fopen` of musl on this kernel. Its memory comes from `malloc`, which can only get any by
SYS_brk and SYS_mmap: the first returns 0 and the second is no system call of this kernel. What
`malloc` and `fopen` do with memory they did get is left out; a result of `none` would be it. -/
namespace LuaKernel.StdioOpen

open Strings Runs

def PAGE_SIZE : Nat := 4096
def SIZE_ALIGN : Nat := 32
def OVERHEAD : Nat := 16
def MMAP_THRESHOLD : Nat := 0x1c00 * SIZE_ALIGN
def SIZE_MAX : Nat := 2 ^ 64 - 1
def PTRDIFF_MAX : Nat := 2 ^ 63 - 1
def MAP_FAILED : Nat := 2 ^ 64 - 1

/-- The static `mal`, and the static `init` of `init_malloc`. -/
structure Mal where
  brk : Nat
  binmap : Nat
  mmapStep : Nat
  init : Nat

def multiple (unit n : Nat) : Nat := n / unit * unit

def brk (_ : Nat) : Nat := 0

/-- What `handle_syscall` returns by default, as a pointer. -/
def notHandled : Nat := 2 ^ 64 - 1

def mmap (len : Nat) : Nat := if len ≥ PTRDIFF_MAX then MAP_FAILED else notHandled

def expandHeap (n : Nat) (m : Mal) : Option (Nat × Mal) :=
  if n > (SIZE_MAX + 2 ^ 64 - m.brk - 2 * PAGE_SIZE) % 2 ^ 64 then some (0, m) else
  let new := multiple PAGE_SIZE ((m.brk + n + SIZE_ALIGN + PAGE_SIZE - 1) % 2 ^ 64)
  let n := (new + 2 ^ 64 - m.brk) % 2 ^ 64
  if brk new ≠ new then
    let min := PAGE_SIZE * 2 ^ (m.mmapStep / 2)
    let n := multiple PAGE_SIZE (n + PAGE_SIZE - 1)
    if mmap (max n min) = MAP_FAILED then some (0, m) else none
  else none

/-- `init_malloc`: 1 after it got memory, 0 if that was before, and -1. -/
def initMalloc (n : Nat) (m : Mal) : Option (Int × Mal) :=
  if m.init = 2 then some (0, m) else do
  let m := { m with brk := multiple SIZE_ALIGN (brk 0 + 2 * SIZE_ALIGN - 1) }
  let (c, m) ← expandHeap n m
  if c = 0 then return (-1, { m with init := 0 }) else none

/-- `adjust_size`; `none` is its error. The source finds 0 among the sizes that are too large,
for it compares `n - 1`. -/
def adjustSize (n : Nat) : Option Nat :=
  if n = 0 then some SIZE_ALIGN
  else if n - 1 > PTRDIFF_MAX - SIZE_ALIGN - PAGE_SIZE then none
  else some (multiple SIZE_ALIGN (n + OVERHEAD + SIZE_ALIGN - 1))

/-- The bits of `x` as a `float`, for a number that one holds exactly. -/
def floatBits (x : Nat) : Nat :=
  (127 + Nat.log2 x) * 2 ^ 23 + (x - 2 ^ Nat.log2 x) * 2 ^ (23 - Nat.log2 x)

def binIndexUp (n : Nat) : Nat :=
  let x := n / SIZE_ALIGN - 1
  if x ≤ 32 then x else (floatBits x + 0x1fffff) / 2 ^ 21 - 496

def mask (n : Nat) (m : Mal) : Nat := m.binmap &&& (2 ^ 64 - 2 ^ binIndexUp n)

def fromHeap (n : Nat) (m : Mal) : Option (Nat × Mal) := do
  let (got, m) ← initMalloc n m
  if got > 0 then none else
  let (c, m) ← expandHeap n m
  if c = 0 then return (0, m) else none

def malloc (n : Nat) (m : Mal) : Option (Nat × Mal) :=
  match adjustSize n with
  | none => some (0, m)
  | some n =>
    if n > MMAP_THRESHOLD then
      if mmap (multiple PAGE_SIZE (n + OVERHEAD + PAGE_SIZE - 1)) = MAP_FAILED then some (0, m)
      else none
    else if mask n m ≠ 0 then none else fromHeap n m

def O_RDONLY : Nat := 0
def O_WRONLY : Nat := 1
def O_RDWR : Nat := 2
def O_EXCL : Nat := 128
def O_TRUNC : Nat := 512
def O_CLOEXEC : Nat := 0x80000

def first (mode : Bytes) : UInt8 := mode.headD 0

/-- `strchr("rwa", *mode)`, which finds the zero at the end as well. -/
def validMode (mode : Bytes) : Bool := first mode ∈ [114, 119, 97, 0]

def fmodeflags (mode : Bytes) : Nat :=
  let flags := if 43 ∈ mode then O_RDWR else if first mode = 114 then O_RDONLY else O_WRONLY
  let flags := if 120 ∈ mode then flags ||| O_EXCL else flags
  let flags := if 101 ∈ mode then flags ||| O_CLOEXEC else flags
  let flags := if first mode ≠ 114 then flags ||| Files.O_CREAT else flags
  let flags := if first mode = 119 then flags ||| O_TRUNC else flags
  if first mode = 97 then flags ||| Files.O_APPEND else flags

def fileSize : Nat := 224 + 8 + 1024

def fdopen (mode : Bytes) (m : Mal) : Option (Nat × Mal) :=
  if validMode mode then do
    let (f, m) ← malloc fileSize m
    if f = 0 then return (0, m) else none
  else some (0, m)

structure State where
  calls : Syscalls.State
  mal : Mal
  /-- what `fopen` and `malloc` have returned -/
  returned : List Nat

def fopen (filename : String) (mode : Bytes) (len : Nat) (s : State) : Option State :=
  if validMode mode then do
    let call := Syscalls.Call.open_ filename (fmodeflags mode) len
    let (fd, calls) ← if Syscalls.Enabled s.calls call then Syscalls.handle s.calls call else none
    if fd < 0 then return ⟨calls, s.mal, 0 :: s.returned⟩
    let (f, mal) ← fdopen mode s.mal
    if f ≠ 0 then return ⟨calls, mal, f :: s.returned⟩
    let (_, calls) ← Syscalls.handle calls (.close fd)
    return ⟨calls, mal, 0 :: s.returned⟩
  else some { s with returned := 0 :: s.returned }

inductive Label
  | fopen (filename : String) (mode : Bytes) (len : Nat)
  /-- another use of `malloc` in musl -/
  | malloc (n : Nat)
  /-- a system call of SQLite, or a use of the registry -/
  | call (call : Syscalls.Call)

def step (s : State) : Label → Option State
  | .fopen filename mode len => fopen filename mode len s
  | .malloc n => (malloc n s.mal).map fun (p, mal) => ⟨s.calls, mal, p :: s.returned⟩
  | .call call => (Syscalls.step s.calls call).map ({ s with calls := · })

def boot : State := ⟨Syscalls.boot, ⟨0, 0, 0, 0⟩, []⟩

def Label.calls : Label → List Syscalls.Call
  | .fopen filename mode len =>
    if validMode mode then [.open_ filename (fmodeflags mode) len] else []
  | .malloc _ => []
  | .call c => [c]

/-- `malloc` has no chunk, and has not moved its break. -/
structure Mal.Empty (m : Mal) : Prop where
  brk : m.brk ≤ SIZE_ALIGN
  binmap : m.binmap = 0
  init : m.init = 0

theorem mmap_fails (len : Nat) : mmap len = MAP_FAILED := by
  unfold mmap
  split <;> rfl

/-- The new break is a page or more, for the sum has not wrapped. -/
theorem expandHeap_fails (n : Nat) (low : m.brk ≤ SIZE_ALIGN) : expandHeap n m = some (0, m) := by
  unfold expandHeap
  split
  · rfl
  · rename_i inside
    have moved : brk (multiple PAGE_SIZE ((m.brk + n + SIZE_ALIGN + PAGE_SIZE - 1) % 2 ^ 64)) ≠
        multiple PAGE_SIZE ((m.brk + n + SIZE_ALIGN + PAGE_SIZE - 1) % 2 ^ 64) := by
      simp only [SIZE_MAX,SIZE_ALIGN,PAGE_SIZE,brk,multiple] at low inside ⊢
      omega
    rw [if_pos moved,if_pos (mmap_fails _)]

theorem initMalloc_fails (n : Nat) (empty : m.Empty) :
    ∃ m', initMalloc n m = some (-1, m') ∧ m'.Empty := by
  have low : multiple SIZE_ALIGN (brk 0 + 2 * SIZE_ALIGN - 1) ≤ SIZE_ALIGN := by decide
  refine ⟨⟨multiple SIZE_ALIGN (brk 0 + 2 * SIZE_ALIGN - 1), m.binmap, m.mmapStep, 0⟩,?_,
    low,empty.binmap,rfl⟩
  have failed := expandHeap_fails n
    (m := { m with brk := multiple SIZE_ALIGN (brk 0 + 2 * SIZE_ALIGN - 1) }) low
  have first : m.init ≠ 2 := by simp [empty.init]
  simp [initMalloc,first,failed]

theorem fromHeap_fails (n : Nat) (empty : m.Empty) :
    ∃ m', fromHeap n m = some (0, m') ∧ m'.Empty := by
  obtain ⟨m',failed,empty'⟩ := initMalloc_fails n empty
  have again := expandHeap_fails n empty'.brk
  refine ⟨m',?_,empty'⟩
  rw [fromHeap,failed,Option.bind_eq_bind,Option.bind_some]
  dsimp only
  rw [if_neg (by decide),again]
  rfl

theorem malloc_fails (n : Nat) (empty : m.Empty) :
    ∃ m', malloc n m = some (0, m') ∧ m'.Empty := by
  unfold malloc
  split
  · exact ⟨m,rfl,empty⟩
  · rename_i size _
    split
    · rw [if_pos (mmap_fails _)]
      exact ⟨m,rfl,empty⟩
    · have bare : mask size m = 0 := by rw [mask,empty.binmap,Nat.zero_and]
      rw [if_neg (not_not_intro bare)]
      exact fromHeap_fails size empty

theorem fdopen_fails (mode : Bytes) (empty : m.Empty) :
    ∃ m', fdopen mode m = some (0, m') ∧ m'.Empty := by
  unfold fdopen
  split
  · obtain ⟨m',failed,empty'⟩ := malloc_fails fileSize empty
    exact ⟨m',by simp [failed],empty'⟩
  · exact ⟨m,rfl,empty⟩

structure Good (s : State) : Prop where
  kept : ∃ free, Syscalls.Kept s.calls free
  empty : s.mal.Empty
  null : ∀ p ∈ s.returned, p = 0

theorem good_boot : Good boot :=
  ⟨⟨[],Syscalls.boot_fresh.kept⟩,⟨by decide,rfl,rfl⟩,by simp [boot]⟩

theorem step_fails (good : Good s) (ran : run Syscalls.step s.calls label.calls = some calls) :
    ∃ next, step s label = some next ∧ next.calls = calls ∧ Good next := by
  obtain ⟨free,kept⟩ := good.kept
  cases label with
  | fopen filename mode len =>
    by_cases valid : validMode mode = true
    · have opened : Syscalls.step s.calls (.open_ filename (fmodeflags mode) len) = some calls := by
        simpa [Label.calls,valid,run] using ran
      have border : Syscalls.Enabled s.calls (.open_ filename (fmodeflags mode) len) := by
        by_contra disabled
        simp [Syscalls.step,disabled] at opened
      obtain ⟨fd,next,done,positive,-⟩ := kept.opens border filename (fmodeflags mode)
      obtain rfl : next = calls := by
        simpa [Syscalls.step,border,done] using opened
      obtain ⟨mal,failed,empty⟩ := fdopen_fails mode good.empty
      refine ⟨⟨next, mal, 0 :: s.returned⟩,?_,rfl,kept.step opened,empty,by simpa using good.null⟩
      have positive : ¬fd < 0 := by omega
      have closed : Syscalls.handle next (.close fd) = some (0, next) := rfl
      simp [step,fopen,valid,border,done,failed,positive,closed]
    · have same : s.calls = calls := by simpa [Label.calls,valid,run] using ran
      refine ⟨{ s with returned := 0 :: s.returned },by simp [step,fopen,valid],same,
        good.kept,good.empty,by simpa using good.null⟩
  | malloc n =>
    have same : s.calls = calls := by simpa [Label.calls,run] using ran
    obtain ⟨mal,failed,empty⟩ := malloc_fails n good.empty
    exact ⟨⟨s.calls, mal, 0 :: s.returned⟩,by simp [step,failed],same,good.kept,empty,
      by simpa using good.null⟩
  | call c =>
    have called : Syscalls.step s.calls c = some calls := by simpa [Label.calls,run] using ran
    exact ⟨{ s with calls := calls },by simp [step,called],rfl,kept.step called,good.empty,
      good.null⟩

theorem run_fails (good : Good s)
    (ran : run Syscalls.step s.calls (labels.flatMap Label.calls) = some calls) :
    ∃ next, run step s labels = some next ∧ next.calls = calls ∧ Good next := by
  induction labels generalizing s with
  | nil => exact ⟨s,rfl,by simpa using ran,good⟩
  | cons label rest ih =>
    rw [List.flatMap_cons,run_append] at ran
    obtain ⟨middle,first,others⟩ := ran
    obtain ⟨s',moved,rfl,good'⟩ := step_fails good first
    obtain ⟨next,ran,same,ended⟩ := ih good' others
    exact ⟨next,(run_cons _ _ _ _).mpr ⟨s',moved,ran⟩,same,ended⟩

def isOpen : Syscalls.Call → Bool
  | .open_ .. => true
  | _ => false

theorem step_opened (moved : Syscalls.step s call = some next) :
    next.opened.length = s.opened.length + (isOpen call).toNat := by
  cases call with
  | open_ pathname flags len =>
    rw [Syscalls.step] at moved
    split at moved
    · obtain ⟨⟨fd,_⟩,done,rfl⟩ := Option.map_eq_some_iff.mp moved
      obtain ⟨-,rfl⟩ := by simpa [Syscalls.handle] using done
      rfl
    · cases moved
  | _ =>
    cases Syscalls.step_moves s next moved with
    | framed frame => simp [frame.opened,isOpen]
    | _ => rfl

theorem run_opened (ran : run Syscalls.step s calls = some next) :
    next.opened.length = s.opened.length + calls.countP isOpen := by
  induction calls generalizing s with
  | nil => simp [← Option.some.inj ran]
  | cons call rest ih =>
    obtain ⟨middle,moved,later⟩ := (run_cons _ _ _ _).mp ran
    rw [ih later,step_opened moved,List.countP_cons]
    cases isOpen call
    · simp
    · simp only [Bool.toNat_true,if_true]
      omega

/-- No `fopen` and no `malloc` ever returns anything but a null pointer. All that is left of an
`fopen` is its SYS_open: the file it creates, and a descriptor that stays open. -/
theorem fopen_never (labels : List Label) (calls : Syscalls.State)
    (ran : run Syscalls.step Syscalls.boot (labels.flatMap Label.calls) = some calls) :
    ∃ s, run step boot labels = some s ∧ s.calls = calls ∧ (∀ p ∈ s.returned, p = 0) ∧
      s.calls.opened.length = (labels.flatMap Label.calls).countP isOpen := by
  obtain ⟨s,all,rfl,good⟩ := run_fails good_boot ran
  refine ⟨s,all,rfl,good.null,?_⟩
  rw [run_opened ran]
  exact Nat.zero_add _

/-- A file opened for writing, twice, and a request for memory in between. -/
def writes : List Label := [.fopen "/a" [119] 2, .malloc 100, .fopen "/a" [119] 3]

theorem writes_never : ∃ calls s,
    run Syscalls.step Syscalls.boot (writes.flatMap Label.calls) = some calls ∧
      run step boot writes = some s ∧ s.calls = calls ∧ (∀ p ∈ s.returned, p = 0) ∧
      s.calls.opened.length = (writes.flatMap Label.calls).countP isOpen := by
  obtain ⟨calls,ran⟩ : ∃ calls,
      run Syscalls.step Syscalls.boot (writes.flatMap Label.calls) = some calls := ⟨_,rfl⟩
  obtain ⟨s,all⟩ := fopen_never writes calls ran
  exact ⟨calls,s,ran,all⟩

end LuaKernel.StdioOpen
