import LuaKernel.Stdio

/-! A FILE is a log: what the kernel has taken, and what waits in the buffer. Over a kernel that
takes a text from its start, in parts of any size, every function of the stream does to the log
what it is meant to do. -/
namespace LuaKernel.Stdio

open Bytes Grid Strings

/-- A kernel that in a `good` state takes some of a text of up to `limit` bytes, from the start;
`taken` is all that it took. -/
structure Sink (K : Type) where
  calls : Calls K
  fd : Int
  limit : Nat
  good : K → Prop
  taken : K → Bytes
  writev : ∀ iov k, good k → iov.flatten.length ≤ limit → ∃ (cnt : Nat) (next : K),
    calls.writev fd iov k = some ((cnt : Int), next) ∧ good next ∧ cnt ≤ iov.flatten.length ∧
      (iov.flatten ≠ [] → 0 < cnt) ∧ taken next = taken k ++ iov.flatten.take cnt
  terminal : calls.ioctl fd = 0

variable {K : Type} (sink : Sink K)

/-- The last part, whatever has been taken before. -/
theorem writeLoop_last (len fuel : Nat) (text : Bytes) (s : Stream K) (enough : text.length < fuel)
    (small : text.length ≤ sink.limit) (here : s.file.fd = sink.fd) (start : sink.good s.kernel) :
    ∃ kernel, writeLoop sink.calls len fuel [text] text.length s =
        some (len, ⟨s.file.rewound, s.memory, kernel⟩) ∧
      sink.good kernel ∧ sink.taken kernel = sink.taken s.kernel ++ text := by
  induction fuel generalizing text s with
  | zero => omega
  | succ fuel ih =>
    obtain ⟨cnt,next,took,good',most,some_,more⟩ :=
      sink.writev [text] s.kernel start (by simpa using small)
    have ret : Writev.syscallRet (cnt : Int) = cnt := if_neg (by omega)
    simp only [List.flatten_cons,List.flatten_nil,List.append_nil] at most some_ more
    rw [writeLoop,here,took]
    simp only [Option.bind_eq_bind,Option.bind_some,ret]
    by_cases all : cnt = text.length
    · subst all
      simp only [↓reduceIte]
      exact ⟨next,rfl,good',by rw [more,List.take_length]⟩
    · have fewer : ¬(cnt : Int) = text.length := by omega
      have taking : 0 < cnt := some_ (by rintro rfl; exact all (Nat.le_zero.mp most))
      have length : (text.drop cnt).length = text.length - cnt := List.length_drop
      have inside : ¬text.length < cnt := by omega
      obtain ⟨kernel,result,good'',rest⟩ := ih (text.drop cnt) { s with kernel := next }
        (by omega) (by omega) here good'
      rw [length] at result
      have positive : ¬(cnt : Int) < 0 := by omega
      simp only [fewer,positive,↓reduceIte,Int.toNat_natCast,inside,result]
      exact ⟨kernel,rfl,good'',by
        rw [rest,more,List.append_assoc,List.take_append_drop]⟩

theorem writeLoop_both (len fuel : Nat) (buffered text : Bytes) (s : Stream K)
    (enough : buffered.length + text.length < fuel)
    (small : buffered.length + text.length ≤ sink.limit) (here : s.file.fd = sink.fd)
    (start : sink.good s.kernel) :
    ∃ kernel, writeLoop sink.calls len fuel [buffered, text] (buffered.length + text.length) s =
        some (len, ⟨s.file.rewound, s.memory, kernel⟩) ∧
      sink.good kernel ∧ sink.taken kernel = sink.taken s.kernel ++ buffered ++ text := by
  induction fuel generalizing buffered s with
  | zero => omega
  | succ fuel ih =>
    obtain ⟨cnt,next,took,good',most,some_,more⟩ :=
      sink.writev [buffered, text] s.kernel start (by simpa using small)
    have ret : Writev.syscallRet (cnt : Int) = cnt := if_neg (by omega)
    have total : (buffered ++ text).length = buffered.length + text.length := List.length_append
    simp only [List.flatten_cons,List.flatten_nil,List.append_nil] at most some_ more
    rw [writeLoop,here,took]
    simp only [Option.bind_eq_bind,Option.bind_some,ret]
    by_cases all : cnt = buffered.length + text.length
    · subst all
      simp only [↓reduceIte]
      exact ⟨next,rfl,good',by rw [more,← total,List.take_length,List.append_assoc]⟩
    have fewer : ¬(cnt : Int) = ((buffered.length + text.length : Nat) : Int) := by omega
    have positive : ¬(cnt : Int) < 0 := by omega
    simp only [fewer,positive,↓reduceIte,Int.toNat_natCast]
    by_cases past : buffered.length < cnt
    · have length : (text.drop (cnt - buffered.length)).length =
        buffered.length + text.length - cnt := by rw [List.length_drop]; omega
      obtain ⟨kernel,result,good'',rest⟩ := writeLoop_last sink len fuel
        (text.drop (cnt - buffered.length))
        ⟨{ s.file with wpos := s.file.buf, wbase := s.file.buf }, s.memory, next⟩
        (by omega) (by omega) here good'
      rw [length] at result
      simp only [past,↓reduceIte,result]
      refine ⟨kernel,rfl,good'',?_⟩
      rw [rest,more,List.take_append,List.take_of_length_le (by omega),List.append_assoc,
        List.append_assoc,List.take_append_drop,List.append_assoc]
    · have length : (buffered.drop cnt).length = buffered.length - cnt := List.length_drop
      have taking : 0 < cnt := some_ (by
        intro nothing
        have := congrArg List.length nothing
        rw [total,List.length_nil] at this
        omega)
      obtain ⟨kernel,result,good'',rest⟩ := ih (buffered.drop cnt)
        ⟨{ s.file with wbase := s.file.wbase + cnt }, s.memory, next⟩
        (by omega) (by omega) here good'
      have left : buffered.length + text.length - cnt =
        (buffered.drop cnt).length + text.length := by omega
      simp only [past,↓reduceIte,left,result]
      refine ⟨kernel,rfl,good'',?_⟩
      rw [rest,more,List.take_append_of_le_length (by omega),
        List.append_assoc (sink.taken s.kernel),List.take_append_drop]

/-- `__stdio_write` hands over the buffer and then the text, each byte once, however many calls
that takes. -/
theorem stdioWrite_takes (text : Bytes) (s : Stream K) (here : s.file.fd = sink.fd)
    (start : sink.good s.kernel) (small : s.pending.length + text.length ≤ sink.limit) :
    ∃ kernel, stdioWrite sink.calls text s =
        some (text.length, ⟨s.file.rewound, s.memory, kernel⟩) ∧
      sink.good kernel ∧ sink.taken kernel = sink.taken s.kernel ++ s.pending ++ text :=
  writeLoop_both sink text.length _ s.pending text s (Nat.lt_succ_self _) small here start

theorem write_takes (text : Bytes) (s : Stream K) (here : s.file.fd = sink.fd)
    (start : sink.good s.kernel) (small : s.pending.length + text.length ≤ sink.limit) :
    ∃ kernel, write sink.calls text s =
        some (text.length, ⟨{ s.file.rewound with first := false }, s.memory, kernel⟩) ∧
      sink.good kernel ∧ sink.taken kernel = sink.taken s.kernel ++ s.pending ++ text := by
  by_cases first : s.file.first = true
  · have terminal := sink.terminal
    rw [← here] at terminal
    obtain ⟨kernel,result,good,taken⟩ := stdioWrite_takes sink text
      { s with file := { s.file with first := false } } here start small
    refine ⟨kernel,?_,good,taken⟩
    simp only [write,first,↓reduceIte,stdoutWrite,terminal,ne_eq,not_true_eq_false,and_false]
    exact result
  · obtain ⟨kernel,result,good,taken⟩ := stdioWrite_takes sink text s here start small
    have again : { s.file.rewound with first := false } = s.file.rewound := by
      simp only [Bool.not_eq_true] at first
      simp only [FILE.rewound,first]
    refine ⟨kernel,?_,good,taken⟩
    rw [write,if_neg first,result,again]

structure Log where
  shown : Bytes
  pending : Bytes

/-- A text that does not fit is shown after what is pending; otherwise its complete lines are. -/
def Log.write (size : Nat) (text : Bytes) (l : Log) : Log :=
  if size < l.pending.length + text.length then ⟨l.shown ++ l.pending ++ text, []⟩ else
  let i := lineEnd text text.length
  if i ≠ 0 then ⟨l.shown ++ l.pending ++ text.take i, text.drop i⟩
  else ⟨l.shown, l.pending ++ text⟩

def Log.flush (l : Log) : Log := ⟨l.shown ++ l.pending, []⟩

structure Holds (size : Nat) (s : Stream K) (l : Log) : Prop where
  fd : s.file.fd = sink.fd
  place : 0 < s.file.buf
  buffer : s.file.bufSize = size
  writable : s.file.flags &&& F_NOWR = 0
  lines : s.file.lbf = 10
  pointers : (s.file.wend = 0 ∧ s.file.wpos = 0 ∧ s.file.wbase = 0) ∨
    (s.file.wend = s.file.buf + s.file.bufSize ∧ s.file.wbase = s.file.buf ∧
      s.file.buf ≤ s.file.wpos ∧ s.file.wpos ≤ s.file.wend)
  good : sink.good s.kernel
  shown : sink.taken s.kernel = l.shown
  pending : s.pending = l.pending

/-- The buffer is set up: `wpos` stands behind what is pending. -/
structure Active (size : Nat) (s : Stream K) (l : Log) : Prop extends Holds sink size s l where
  wend : s.file.wend = s.file.buf + size
  wbase : s.file.wbase = s.file.buf
  wpos : s.file.wpos = s.file.buf + l.pending.length
  fits : l.pending.length ≤ size

section Steps

variable {sink} {size : Nat} {s : Stream K} {l : Log}

theorem Holds.null (holds : Holds sink size s l) (null : s.file.wend = 0) :
    s.pending = [] ∧ s.file.wpos = 0 ∧ s.file.wbase = 0 := by
  have place := holds.place
  rcases holds.pointers with ⟨-,wpos,wbase⟩ | ⟨wend,-⟩
  · exact ⟨by rw [Stream.pending,wpos,wbase]; rfl,wpos,wbase⟩
  · omega

theorem Holds.active (holds : Holds sink size s l) : ∃ file,
    (if s.file.wend = 0 then towrite s.file else (0, s.file)) = (0, file) ∧
      Active sink size { s with file := file } l := by
  by_cases null : s.file.wend = 0
  · obtain ⟨nothing,-⟩ := holds.null null
    rw [holds.pending] at nothing
    refine ⟨s.file.rewound,?_,?_⟩
    · simp [null,towrite,holds.writable]
    · refine ⟨⟨holds.fd,holds.place,holds.buffer,holds.writable,holds.lines,Or.inr ⟨rfl,rfl,
        Nat.le_refl _,Nat.le_add_right _ _⟩,holds.good,holds.shown,?_⟩,?_,rfl,?_,?_⟩
      · rw [nothing]
        simp [Stream.pending,FILE.rewound,copy]
      · exact congrArg _ holds.buffer
      · rw [nothing]
        rfl
      · rw [nothing]
        exact Nat.zero_le _
  · obtain ⟨wend,wbase,lower,upper⟩ := holds.pointers.resolve_left fun pointers => null pointers.1
    have length : l.pending.length = s.file.wpos - s.file.wbase := by
      rw [← holds.pending,Stream.pending,copy_length]
    refine ⟨s.file,if_neg null,⟨holds,?_,wbase,?_,?_⟩⟩
    · rw [wend,holds.buffer]
    · rw [length,wbase]
      exact (Nat.add_sub_cancel' lower).symm
    · rw [length,wbase,← holds.buffer]
      omega

/-- A text that fits goes behind what is pending. -/
theorem Active.append (active : Active sink size s l) (text : Bytes)
    (room : l.pending.length + text.length ≤ size) :
    Active sink size (s.append text) ⟨l.shown, l.pending ++ text⟩ := by
  have wpos := active.wpos
  have wbase := active.wbase
  have pending := active.pending
  have width : s.file.wpos + text.length - s.file.wbase = l.pending.length + text.length := by
    omega
  have before : s.file.wpos - s.file.wbase = l.pending.length := by omega
  rw [Stream.pending,before] at pending
  refine ⟨⟨active.fd,active.place,active.buffer,active.writable,active.lines,Or.inr ?_,active.good,
    active.shown,?_⟩,active.wend,active.wbase,?_,?_⟩
  · have wend := active.wend
    have same := active.buffer
    simp only [Stream.append]
    omega
  · simp only [Stream.pending,Stream.append,width]
    rw [copy_add,copy_put_apart _ _ _ (by omega),pending]
    congr 1
    have behind : s.file.wbase + l.pending.length = s.file.wpos := by omega
    rw [behind,copy_put_self]
  · simp only [Stream.append,List.length_append]
    omega
  · rw [List.length_append]
    exact room

theorem Holds.write (holds : Holds sink size s l) (text : Bytes)
    (small : l.pending.length + text.length ≤ sink.limit) :
    ∃ next, write sink.calls text s = some (text.length, next) ∧
      Active sink size next ⟨l.shown ++ l.pending ++ text, []⟩ := by
  obtain ⟨kernel,result,good,taken⟩ := write_takes sink text s holds.fd holds.good
    (holds.pending ▸ small)
  refine ⟨_,result,⟨holds.fd,holds.place,holds.buffer,holds.writable,holds.lines,Or.inr ⟨rfl,rfl,
    Nat.le_refl _,Nat.le_add_right _ _⟩,good,?_,?_⟩,?_,rfl,rfl,Nat.zero_le _⟩
  · rw [taken,holds.shown,holds.pending]
  · simp [Stream.pending,FILE.rewound,copy]
  · exact congrArg _ holds.buffer

theorem lineEnd_le (text : Bytes) (n : Nat) : lineEnd text n ≤ n := by
  induction n with
  | zero => exact Nat.le_refl 0
  | succ n ih =>
    rw [lineEnd]
    split <;> omega

theorem Holds.fwritex (holds : Holds sink size s l) (text : Bytes)
    (small : l.pending.length + text.length ≤ sink.limit) :
    ∃ next, fwritex sink.calls text s = some (text.length, next) ∧
      Active sink size next (l.write size text) := by
  obtain ⟨file,set,active⟩ := holds.active
  have room : file.wend - file.wpos = size - l.pending.length := by
    have wend := active.wend
    have wpos := active.wpos
    simp only at wend wpos
    omega
  have lines : file.lbf = 10 := active.lines
  have fits := active.fits
  simp only [Stdio.fwritex,set,ne_eq,not_true_eq_false,↓reduceIte,room,lines,Log.write]
  by_cases long : size < l.pending.length + text.length
  · rw [if_pos (by omega : size - l.pending.length < text.length),if_pos long]
    exact active.write text small
  rw [if_neg (by omega : ¬size - l.pending.length < text.length),if_neg long]
  simp only [(by decide : (0 : Int) ≤ 10),↓reduceIte]
  have below := lineEnd_le text text.length
  generalize lineEnd text text.length = i at below
  by_cases none : i = 0
  · subst none
    simp only [not_true_eq_false,↓reduceIte,Nat.add_zero]
    exact ⟨_,rfl,active.append text (by omega)⟩
  · have taken : (text.take i).length = i := List.length_take_of_le below
    obtain ⟨next,result,after⟩ := active.write (text.take i) (by omega)
    rw [taken] at result
    simp only [none,not_false_eq_true,↓reduceIte,result,Option.bind_eq_bind,Option.bind_some,
      Nat.lt_irrefl]
    have rest := after.append (text.drop i) (by
      rw [List.length_drop,List.length_nil]
      omega)
    rw [List.nil_append] at rest
    exact ⟨_,by rw [Nat.sub_add_cancel below]; rfl,rest⟩

theorem Holds.fwrite (holds : Holds sink size s l) (text : Bytes)
    (small : l.pending.length + text.length ≤ sink.limit) (whole : width * count = text.length) :
    ∃ next, fwrite sink.calls width count text s = some (count, next) ∧
      Active sink size next (l.write size text) := by
  obtain ⟨next,result,active⟩ := holds.fwritex text small
  refine ⟨next,?_,active⟩
  simp only [Stdio.fwrite,result,Option.bind_eq_bind,Option.bind_some,whole,↓reduceIte]
  rfl

theorem lineEnd_one (c : UInt8) : lineEnd [c] 1 = if c = Terminal.newline then 1 else 0 := by
  by_cases newline : c = Terminal.newline <;> simp [lineEnd,newline]

theorem Log.write_one (l : Log) (fits : l.pending.length ≤ size) (c : UInt8) :
    l.write size [c] = if l.pending.length < size ∧ c ≠ Terminal.newline then
      ⟨l.shown, l.pending ++ [c]⟩ else ⟨l.shown ++ l.pending ++ [c], []⟩ := by
  by_cases room : l.pending.length < size
  · have short : ¬size < l.pending.length + 1 := by omega
    simp only [Log.write,List.length_singleton,short,↓reduceIte,lineEnd_one,room,true_and]
    by_cases newline : c = Terminal.newline <;> simp [newline]
  · have long : size < l.pending.length + [c].length := by
      simp only [List.length_singleton]
      omega
    simp only [Log.write,long,↓reduceIte,room,false_and]

/-- A character that goes into the buffer, or takes it along. -/
theorem Active.putc (active : Active sink size s l) (c : UInt8)
    (small : l.pending.length + 1 ≤ sink.limit) :
    (s.file.wpos < s.file.wend ∧ (c.toNat : Int) ≠ s.file.lbf ∧
      Active sink size (s.append [c]) (l.write size [c])) ∨
    (¬(s.file.wpos < s.file.wend ∧ (c.toNat : Int) ≠ s.file.lbf) ∧
      ∃ next, Stdio.write sink.calls [c] s = some (1, next) ∧
        Active sink size next (l.write size [c])) := by
  have wpos := active.wpos
  have wend := active.wend
  have lines := active.lines
  have character : (c.toNat : Int) = 10 ↔ c = Terminal.newline := by
    constructor
    · intro ten
      exact UInt8.toNat_inj.mp (by simp only [Terminal.newline]; exact_mod_cast ten)
    · rintro rfl
      rfl
  rw [Log.write_one l active.fits,lines]
  by_cases room : l.pending.length < size ∧ c ≠ Terminal.newline
  · rw [if_pos room]
    refine Or.inl ⟨by omega,fun ten => room.2 (character.mp ten),?_⟩
    exact active.append [c] room.1
  · rw [if_neg room]
    refine Or.inr ⟨fun inside => room ⟨by omega,fun newline =>
      inside.2 (character.mpr newline)⟩,?_⟩
    exact active.write [c] small

theorem Holds.putcUnlocked (holds : Holds sink size s l) (c : UInt8)
    (small : l.pending.length + 1 ≤ sink.limit) :
    ∃ next, putcUnlocked sink.calls c s = some ((c.toNat : Int), next) ∧
      Active sink size next (l.write size [c]) := by
  obtain ⟨file,set,active⟩ := holds.active
  by_cases inside : (c.toNat : Int) ≠ s.file.lbf ∧ s.file.wpos < s.file.wend
  · have same : file = s.file := by
      rw [if_neg (by omega)] at set
      exact (Prod.mk.inj set).2.symm
    subst same
    rw [Stdio.putcUnlocked,if_pos inside]
    rcases active.putc c small with ⟨-,-,after⟩ | ⟨full,-⟩
    · exact ⟨_,rfl,after⟩
    · exact absurd ⟨inside.2,inside.1⟩ full
  · rw [Stdio.putcUnlocked,if_neg inside]
    simp only [overflow,set,ne_eq,not_true_eq_false,↓reduceIte]
    rcases active.putc c small with ⟨room,plain,after⟩ | ⟨full,next,result,after⟩
    · rw [if_pos ⟨room,plain⟩]
      exact ⟨_,rfl,after⟩
    · rw [if_neg full]
      simp only [result,Option.bind_eq_bind,Option.bind_some,not_true_eq_false,↓reduceIte]
      exact ⟨next,rfl,after⟩

theorem Holds.fflush (holds : Holds sink size s l) (small : l.pending.length ≤ sink.limit) :
    ∃ next, fflush sink.calls s = some (0, next) ∧ Holds sink size next l.flush := by
  have clears : ∀ t : Stream K, Holds sink size t ⟨l.shown ++ l.pending, []⟩ →
      Holds sink size { t with file := t.file.cleared } l.flush := fun t after =>
    ⟨after.fd,after.place,after.buffer,after.writable,after.lines,Or.inl ⟨rfl,rfl,rfl⟩,after.good,
      after.shown,rfl⟩
  by_cases writing : s.file.wbase < s.file.wpos
  · obtain ⟨next,result,after⟩ := holds.write [] small
    rw [List.append_nil] at after
    have set : ¬next.file.wpos = 0 := by
      have := after.place
      have := after.wpos
      omega
    refine ⟨_,?_,clears next after.toHolds⟩
    simp only [Stdio.fflush,writing,↓reduceIte,result,Option.bind_eq_bind,Option.bind_some,set]
    rfl
  · have nothing : l.pending = [] := by
      rw [← holds.pending,Stream.pending,Nat.sub_eq_zero_of_le (by omega)]
      rfl
    have same : l = ⟨l.shown ++ l.pending, []⟩ := by
      rw [nothing,List.append_nil,← nothing]
    rw [same] at holds
    refine ⟨_,?_,clears s holds⟩
    rw [Stdio.fflush,if_neg writing]

end Steps

end LuaKernel.Stdio
