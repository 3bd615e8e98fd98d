import LuaKernel.StdioWrite

/-! Whole runs of output to `stdout`, over any kernel that takes a text from its start and over the
kernel's own SYS_writev, which shows it on the terminal. -/
namespace LuaKernel.Stdio

open Bytes Grid Strings

def Log.all (l : Log) : Bytes := l.shown ++ l.pending

structure Log.Lined (size : Nat) (l : Log) : Prop where
  line : Terminal.newline ∉ l.pending
  fits : l.pending.length ≤ size

@[simp] theorem Log.all_flush (l : Log) : l.flush.all = l.all := by simp [Log.flush,Log.all]

theorem Log.all_write (size : Nat) (text : Bytes) (l : Log) :
    (l.write size text).all = l.all ++ text := by
  simp only [Log.write,Log.all]
  split_ifs with long line
  · simp
  · simp
  · simp

theorem lineEnd_rest (text : Bytes) (n : Nat) (inside : n ≤ text.length) :
    Terminal.newline ∉ (text.take n).drop (lineEnd text n) := by
  induction n with
  | zero => simp
  | succ n ih =>
    have last : (text.take (n + 1)) = text.take n ++ [text.getD n 0] := by
      rw [List.take_succ_eq_append_getElem inside,List.getD_eq_getElem?_getD,
        List.getElem?_eq_getElem inside,Option.getD_some]
    rw [lineEnd]
    split
    · rename_i plain
      have below := lineEnd_le text n
      rw [last,List.drop_append_of_le_length (by rw [List.length_take]; omega)]
      simp only [List.mem_append,List.mem_singleton,not_or]
      exact ⟨ih (by omega),fun newline => plain newline.symm⟩
    · simp

theorem Log.Lined.flush (l : Log) : Lined size l.flush :=
  ⟨List.not_mem_nil,Nat.zero_le _⟩

theorem Log.Lined.write (lined : Lined size l) (text : Bytes) : Lined size (l.write size text) := by
  have rest := lineEnd_rest text text.length (Nat.le_refl _)
  rw [List.take_length] at rest
  simp only [Log.write]
  split_ifs with long line
  · exact ⟨List.not_mem_nil,Nat.zero_le _⟩
  · have less : (text.drop (lineEnd text text.length)).length ≤ text.length := by simp
    exact ⟨rest,by dsimp only; omega⟩
  · have none : lineEnd text text.length = 0 := by omega
    rw [none,List.drop_zero] at rest
    refine ⟨fun member => ?_,by simp; omega⟩
    rcases List.mem_append.mp member with old | new
    · exact lined.line old
    · exact rest new

/-- A text that ends in a newline leaves nothing pending. -/
theorem Log.write_line (size : Nat) (text : Bytes) (l : Log) :
    (l.write size (text ++ [Terminal.newline])).pending = [] := by
  have whole : lineEnd (text ++ [Terminal.newline]) (text ++ [Terminal.newline]).length =
      (text ++ [Terminal.newline]).length := by
    rw [List.length_append,List.length_singleton,lineEnd]
    simp [Terminal.newline]
  simp only [Log.write]
  split_ifs with long line
  · rfl
  · rw [whole,List.drop_length]
  · rw [whole,List.length_append,List.length_singleton] at line
    omega

inductive Op
  | fwrite (text : Bytes)
  | putc (c : UInt8)
  | fflush
  | fputs (text : Bytes)
  | puts (text : Bytes)
  | print (texts : List Bytes)

def joined : List Bytes → Bytes
  | [] => []
  | text :: rest => text ++ rest.flatMap (9 :: ·)

def Op.text : Op → Bytes
  | .fwrite text => text
  | .putc c => [c]
  | .fflush => []
  | .fputs text => text
  | .puts text => text ++ [Terminal.newline]
  | .print texts => joined texts ++ [Terminal.newline]

def Op.Flushes : Op → Prop
  | .fflush | .puts _ | .print _ => True
  | .fwrite _ | .putc _ | .fputs _ => False

/-- What the call returns when nothing fails; `print` returns no values. -/
def Op.success : Op → Int
  | .fwrite text => text.length
  | .putc c => c.toNat
  | .fflush | .fputs _ | .puts _ | .print _ => 0

section Ops

variable {K : Type} (calls : Calls K)

def Op.perform (s : Stream K) : Op → Option (Int × Stream K)
  | .fwrite text => (Stdio.fwrite calls 1 text.length text s).map fun (n, s) => (n, s)
  | .putc c => putcUnlocked calls c s
  | .fflush => Stdio.fflush calls s
  | .fputs text => Stdio.fputs calls text s
  | .puts text => Stdio.puts calls text s
  | .print texts => (Stdio.print calls texts s).map fun s => (0, s)

def performAll : List Op → Stream K → Option (List Int × Stream K)
  | [], s => some ([], s)
  | op :: rest, s => do
    let (result, s) ← op.perform calls s
    let (results, s) ← performAll rest s
    return (result :: results, s)

end Ops

section Runs

variable {K : Type} {sink : Sink K} {size : Nat} {s : Stream K} {l : Log}

/-- The stream goes on from a log that has grown by `text`. -/
structure Grown (sink : Sink K) (size : Nat) (l : Log) (text : Bytes) (next : Stream K) (l' : Log) :
    Prop where
  holds : Holds sink size next l'
  lined : l'.Lined size
  all : l'.all = l.all ++ text

theorem Grown.trans (first : Grown sink size l a s l') (second : Grown sink size l' b next l'') :
    Grown sink size l (a ++ b) next l'' :=
  ⟨second.holds,second.lined,by rw [second.all,first.all,List.append_assoc]⟩

theorem Holds.extends_ (holds : Holds sink size s l) (lined : l.Lined size) (text : Bytes)
    (small : size + text.length ≤ sink.limit) (whole : width * count = text.length) :
    ∃ next, Stdio.fwrite sink.calls width count text s = some (count, next) ∧
      Grown sink size l text next (l.write size text) := by
  have fits := lined.fits
  obtain ⟨next,result,active⟩ := holds.fwrite text (by omega) whole
  exact ⟨next,result,active.toHolds,lined.write text,Log.all_write size text l⟩

theorem Holds.grows (holds : Holds sink size s l) (lined : l.Lined size) (text : Bytes)
    (small : size + text.length ≤ sink.limit) :
    ∃ next, Stdio.writestring sink.calls text s = some next ∧
      Grown sink size l text next (l.write size text) := by
  obtain ⟨next,result,grown⟩ := holds.extends_ lined text small (Nat.one_mul _)
  exact ⟨next,by rw [Stdio.writestring,result]; rfl,grown⟩

theorem Holds.fputs (holds : Holds sink size s l) (lined : l.Lined size) (text : Bytes)
    (small : size + text.length ≤ sink.limit) :
    ∃ next, Stdio.fputs sink.calls text s = some (0, next) ∧
      Grown sink size l text next (l.write size text) := by
  obtain ⟨next,result,grown⟩ := holds.extends_ lined text small (Nat.mul_one _)
  exact ⟨next,by rw [Stdio.fputs,result]; rfl,grown⟩

theorem Holds.printRest (holds : Holds sink size s l) (lined : l.Lined size) (texts : List Bytes)
    (later : 1 < i) (small : size + (texts.flatMap (9 :: ·)).length ≤ sink.limit) :
    ∃ next l', printFrom sink.calls i texts s = some next ∧
      Grown sink size l (texts.flatMap (9 :: ·)) next l' := by
  induction texts generalizing s l i with
  | nil => exact ⟨s,l,rfl,holds,lined,by simp⟩
  | cons text rest ih =>
    simp only [List.flatMap_cons,List.cons_append,List.length_cons,List.length_append] at small
    obtain ⟨tabbed,tab,first⟩ := holds.grows lined [9] (by simp; omega)
    obtain ⟨written,wrote,second⟩ := first.holds.grows first.lined text (by omega)
    obtain ⟨next,l',result,others⟩ :=
      ih second.holds second.lined (i := i + 1) (by omega) (by omega)
    refine ⟨next,l',?_,?_⟩
    · simp only [printFrom,later,↓reduceIte,tab,wrote,Option.bind_eq_bind,Option.bind_some,result]
    · have all := (first.trans second).trans others
      simpa using all

theorem Holds.print (holds : Holds sink size s l) (lined : l.Lined size) (texts : List Bytes)
    (small : size + (joined texts ++ [Terminal.newline]).length ≤ sink.limit) :
    ∃ next l', Stdio.print sink.calls texts s = some next ∧ l'.pending = [] ∧
      Grown sink size l (joined texts ++ [Terminal.newline]) next l' := by
  have arguments : ∃ next l', printFrom sink.calls 1 texts s = some next ∧
      Grown sink size l (joined texts) next l' := by
    cases texts with
    | nil => exact ⟨s,l,rfl,holds,lined,by simp [joined]⟩
    | cons text rest =>
      simp only [joined,List.length_append,List.length_singleton] at small
      obtain ⟨written,wrote,first⟩ := holds.grows lined text (by omega)
      obtain ⟨next,l',result,others⟩ := first.holds.printRest first.lined rest
        (by decide : 1 < 2) (by omega)
      exact ⟨next,l',by simp [printFrom,wrote,result],first.trans others⟩
  obtain ⟨middle,l',printed,before⟩ := arguments
  simp only [List.length_append,List.length_singleton] at small
  obtain ⟨ended,line,after⟩ := before.holds.grows before.lined [Terminal.newline] (by simp; omega)
  have fits := after.lined.fits
  obtain ⟨next,flushed,empty⟩ := after.holds.fflush (by omega)
  refine ⟨next,_,?_,rfl,empty,Log.Lined.flush _,?_⟩
  · simp only [Stdio.print,printed,writeline,line,flushed,Option.bind_eq_bind,Option.bind_some]
    rfl
  · rw [Log.all_flush,(before.trans after).all]

theorem Holds.puts (holds : Holds sink size s l) (lined : l.Lined size) (text : Bytes)
    (small : size + (text ++ [Terminal.newline]).length ≤ sink.limit) :
    ∃ next l', Stdio.puts sink.calls text s = some (0, next) ∧ l'.pending = [] ∧
      Grown sink size l (text ++ [Terminal.newline]) next l' := by
  simp only [List.length_append,List.length_singleton] at small
  obtain ⟨middle,wrote,grown⟩ := holds.fputs lined text (by omega)
  have fits := grown.lined.fits
  obtain ⟨next,ended,after⟩ := grown.holds.putcUnlocked Terminal.newline (by omega)
  refine ⟨next,_,?_,Log.write_line size [] _,after.toHolds,grown.lined.write _,?_⟩
  · simp only [Stdio.puts,wrote,Option.bind_eq_bind,Option.bind_some,Option.pure_def,
      Int.lt_irrefl,↓reduceIte,ended]
    rfl
  · rw [Log.all_write,grown.all,List.append_assoc,List.nil_append]

theorem Holds.perform (holds : Holds sink size s l) (lined : l.Lined size) (op : Op)
    (small : size + op.text.length ≤ sink.limit) :
    ∃ next l', op.perform sink.calls s = some (op.success, next) ∧
      Grown sink size l op.text next l' ∧ (op.Flushes → l'.pending = []) := by
  have fits := lined.fits
  cases op with
  | fwrite text =>
    obtain ⟨next,result,grown⟩ := holds.extends_ lined text small (Nat.one_mul _)
    exact ⟨next,_,by rw [Op.perform,result]; rfl,grown,False.elim⟩
  | putc c =>
    have small : size + 1 ≤ sink.limit := small
    obtain ⟨next,result,active⟩ := holds.putcUnlocked c (by omega)
    exact ⟨next,_,result,⟨active.toHolds,lined.write _,Log.all_write _ _ _⟩,False.elim⟩
  | fflush =>
    obtain ⟨next,result,after⟩ := holds.fflush (by omega)
    exact ⟨next,_,result,⟨after,Log.Lined.flush _,by
      rw [Log.all_flush,Op.text,List.append_nil]⟩,fun _ => rfl⟩
  | fputs text =>
    obtain ⟨next,result,grown⟩ := holds.fputs lined text small
    exact ⟨next,_,result,grown,False.elim⟩
  | puts text =>
    obtain ⟨next,l',result,empty,grown⟩ := holds.puts lined text small
    exact ⟨next,l',result,grown,fun _ => empty⟩
  | print texts =>
    obtain ⟨next,l',result,empty,grown⟩ := holds.print lined texts small
    exact ⟨next,l',by rw [Op.perform,result]; rfl,grown,fun _ => empty⟩

theorem Holds.run (holds : Holds sink size s l) (lined : l.Lined size) (ops : List Op)
    (small : ∀ op ∈ ops, size + op.text.length ≤ sink.limit) :
    ∃ next l', performAll sink.calls ops s = some (ops.map Op.success, next) ∧
      Grown sink size l (ops.flatMap Op.text) next l' ∧
      ∀ op ∈ ops.getLast?, op.Flushes → l'.pending = [] := by
  induction ops generalizing s l with
  | nil => exact ⟨s,l,rfl,⟨holds,lined,by simp⟩,by simp⟩
  | cons op rest ih =>
    obtain ⟨middle,l₁,first,grown,flushed⟩ := holds.perform lined op (small op (by simp))
    obtain ⟨next,l₂,others,grown',flushed'⟩ := ih grown.holds grown.lined
      fun op member => small op (by simp [member])
    refine ⟨next,l₂,by simp [performAll,first,others],grown.trans grown',?_⟩
    cases rest with
    | nil =>
      cases (Prod.mk.inj (Option.some.inj others)).2
      have same : l₂.pending = l₁.pending := grown'.holds.pending.symm.trans grown.holds.pending
      simpa [same] using flushed
    | cons another rest => simpa using flushed'

end Runs

theorem stdout_holds (sink : Sink K) (one : sink.fd = 1) (place : 0 < buf) (memory : Memory)
    (good : sink.good k) :
    Holds sink BUFSIZ ⟨stdout buf, memory, k⟩ ⟨sink.taken k, []⟩ :=
  ⟨one.symm,place,rfl,(by decide : (1 ||| 4) &&& F_NOWR = 0),rfl,Or.inl ⟨rfl,rfl,rfl⟩,good,rfl,rfl⟩

theorem lined_start (shown : Bytes) : Log.Lined BUFSIZ ⟨shown, []⟩ :=
  ⟨List.not_mem_nil,Nat.zero_le _⟩

/-- Over any kernel that takes texts from their start, in parts of any size: what it took and what
is pending are together what was written, only the start of a line is pending, and after a flush
nothing is. -/
theorem output_taken (sink : Sink K) (one : sink.fd = 1) (buf : Nat) (place : 0 < buf)
    (memory : Memory) (k : K) (good : sink.good k) (ops : List Op)
    (small : ∀ op ∈ ops, BUFSIZ + op.text.length ≤ sink.limit) :
    ∃ s, performAll sink.calls ops ⟨stdout buf, memory, k⟩ = some (ops.map Op.success, s) ∧
      sink.taken s.kernel ++ s.pending = sink.taken k ++ ops.flatMap Op.text ∧
      Terminal.newline ∉ s.pending ∧ s.pending.length ≤ BUFSIZ ∧
      ∀ op ∈ ops.getLast?, op.Flushes → s.pending = [] := by
  obtain ⟨s,l,ran,grown,flushed⟩ :=
    (stdout_holds sink one place memory good).run (lined_start _) ops small
  have all := grown.all
  simp only [Log.all,List.append_nil] at all
  refine ⟨s,ran,?_⟩
  rw [grown.holds.shown,grown.holds.pending]
  exact ⟨all,grown.lined.line,grown.lined.fits,flushed⟩

def trickle : Sink Bytes where
  calls := ⟨fun _ iov k => some (((iov.flatten.take 1).length : Int), k ++ iov.flatten.take 1),
    fun _ => 0⟩
  fd := 1
  limit := 5000
  good _ := True
  taken k := k
  writev iov k _ _ := ⟨(iov.flatten.take 1).length,_,rfl,trivial,List.length_take_le' 1 _,
    fun some_ => List.length_pos_of_ne_nil (by simpa using some_),by simp⟩
  terminal := rfl

/-- `print("a", "b")` after a text without a newline. -/
theorem trickle_taken : ∃ s,
    performAll trickle.calls [.fwrite [120], .print [[97], [98]]]
      ⟨stdout 1, fun _ => 0, []⟩ = some ([1, 0], s) ∧
    s.kernel = [120, 97, 9, 98, 10] ∧ s.pending = [] := by
  obtain ⟨s,ran,all,-,-,flushed⟩ := output_taken trickle rfl 1 (by decide) (fun _ => 0) []
    trivial [.fwrite [120], .print [[97], [98]]] (by
      intro op member
      rcases List.mem_pair.mp member with rfl | rfl <;> decide)
  have empty : s.pending = [] := flushed (.print [[97], [98]]) rfl trivial
  rw [empty,List.append_nil] at all
  exact ⟨s,ran,all,empty⟩

section Terminal

variable (width height : Nat)

/-- What `stdout` has shown of the kernel `k` since it was `k₀`. -/
structure Shown (k₀ k : Writev.Kernel) (text : Bytes) : Prop where
  calls : k.calls = { k₀.calls with
    fs := { k₀.calls.fs with stdout := k₀.calls.fs.stdout ++ text } }
  lines : Terminal.write width height text k₀.lines = some k.lines
  line : k.lines ≠ []

theorem shown_start (line : k.lines ≠ []) : Shown width height k k [] :=
  ⟨by simp,rfl,line⟩

def kernelCalls : Calls Writev.Kernel where
  writev := Writev.sysWritev width height
  ioctl _ := 0

variable {width height}

theorem Shown.writev (shown : Shown width height k₀ k text) (iov : List Bytes)
    (small : iov.flatten.length ≤ 2 ^ 30 - 25) :
    ∃ next, Writev.sysWritev width height 1 iov k = some ((iov.flatten.length : Int), next) ∧
      Shown width height k₀ next (text ++ iov.flatten) := by
  obtain ⟨next,wrote,result⟩ := Writev.writeEach_wrote width height iov (.stdout rfl shown.line) 0
    ⟨by rw [Syscalls.stringSize]; omega,fun other => absurd rfl other⟩
  rw [Int.zero_add] at result
  refine ⟨next,result,?_⟩
  cases wrote with
  | file other => exact absurd rfl other
  | stdout _ more =>
    obtain ⟨lines,also,line⟩ := Terminal.write_nonempty width height iov.flatten shown.line
    rw [more] at also
    refine ⟨?_,?_,Option.some.inj also ▸ line⟩
    · simp [shown.calls]
    · have both : Terminal.write width height (text ++ iov.flatten) k₀.lines = _ :=
        List.foldlM_append
      have before := shown.lines
      rw [Terminal.write] at before
      rw [before] at both
      exact both.trans more

theorem kernel_takes (k₀ : Writev.Kernel) (iov : List Bytes) (k : Writev.Kernel)
    (good : ∃ text, Shown width height k₀ k text) (small : iov.flatten.length ≤ 2 ^ 30 - 25) :
    ∃ (cnt : Nat) (next : Writev.Kernel),
      (kernelCalls width height).writev 1 iov k = some ((cnt : Int), next) ∧
      (∃ text, Shown width height k₀ next text) ∧ cnt ≤ iov.flatten.length ∧
      (iov.flatten ≠ [] → 0 < cnt) ∧
      next.calls.fs.stdout = k.calls.fs.stdout ++ iov.flatten.take cnt := by
  obtain ⟨text,shown⟩ := good
  obtain ⟨next,result,after⟩ := shown.writev iov small
  refine ⟨iov.flatten.length,next,result,⟨_,after⟩,Nat.le_refl _,List.length_pos_of_ne_nil,?_⟩
  rw [after.calls,shown.calls,List.take_length,List.append_assoc]

def kernelSink (width height : Nat) (k₀ : Writev.Kernel) : Sink Writev.Kernel where
  calls := kernelCalls width height
  fd := 1
  limit := 2 ^ 30 - 25
  good k := ∃ text, Shown width height k₀ k text
  taken k := k.calls.fs.stdout
  writev := kernel_takes k₀
  terminal := rfl

/-- On the kernel every byte written to `stdout` reaches the terminal once and in order: the
terminal is what one write of all that is not pending leaves, no other state of the kernel
changes, and after `print`, `puts` or a flush nothing is pending. -/
theorem output_shown (width height : Nat) (buf : Nat) (place : 0 < buf) (memory : Memory)
    (k : Writev.Kernel) (line : k.lines ≠ []) (ops : List Op)
    (small : ∀ op ∈ ops, op.text.length < 2 ^ 29) :
    ∃ s shown, performAll (kernelCalls width height) ops ⟨stdout buf, memory, k⟩ =
        some (ops.map Op.success, s) ∧
      shown ++ s.pending = ops.flatMap Op.text ∧
      Terminal.newline ∉ s.pending ∧ s.pending.length ≤ BUFSIZ ∧
      (∀ op ∈ ops.getLast?, op.Flushes → s.pending = []) ∧
      Terminal.write width height shown k.lines = some s.kernel.lines ∧
      s.kernel.calls = { k.calls with
        fs := { k.calls.fs with stdout := k.calls.fs.stdout ++ shown } } := by
  obtain ⟨s,l,ran,grown,flushed⟩ := (stdout_holds (kernelSink width height k) rfl place memory
    ⟨[],shown_start width height line⟩).run (lined_start _) ops fun op member => by
      have := small op member
      simp only [kernelSink,BUFSIZ]
      omega
  obtain ⟨shown,after⟩ := grown.holds.good
  have all := grown.all
  have taken := grown.holds.shown
  simp only [kernelSink,Log.all,List.append_nil] at all taken
  rw [← taken,after.calls,List.append_assoc,List.append_cancel_left_eq] at all
  rw [← grown.holds.pending] at all
  refine ⟨s,shown,ran,all,?_⟩
  rw [grown.holds.pending]
  exact ⟨grown.lined.line,grown.lined.fits,flushed,after.lines,after.calls⟩

/-- The echo of a key and then a line of output. -/
theorem echo_shown : ∃ s,
    performAll (kernelCalls 1024 768) [.fwrite [120], .fflush, .fputs [121], .print [[97], [98]]]
      ⟨stdout 1, fun _ => 0, Writev.sample⟩ = some ([1, 0, 0, 0], s) ∧
    s.pending = [] ∧ Terminal.write 1024 768 [120, 121, 97, 9, 98, 10] [[]] =
      some s.kernel.lines := by
  obtain ⟨s,shown,ran,all,-,-,flushed,lines,-⟩ := output_shown 1024 768 1 (by decide) (fun _ => 0)
    Writev.sample (by decide) [.fwrite [120], .fflush, .fputs [121], .print [[97], [98]]] (by
      intro op member
      simp only [List.mem_cons,List.not_mem_nil,or_false] at member
      rcases member with rfl | rfl | rfl | rfl <;> decide)
  have empty : s.pending = [] := flushed (.print [[97], [98]]) rfl trivial
  rw [empty,List.append_nil] at all
  rw [all] at lines
  exact ⟨s,ran,empty,lines⟩

end Terminal

end LuaKernel.Stdio
