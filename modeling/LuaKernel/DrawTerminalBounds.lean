import LuaKernel.DrawTerminal

/-! Where `draw_terminal` draws, whatever the other tasks do meanwhile. -/
namespace LuaKernel.DrawTerminal

open Drawing Runs TerminalTables
open Terminal (Line newline)

def Settled : Key → Prop
  | .missing | .reopened _ | .slot _ => False
  | _ => True

theorem keyStep_sound (sound : Sound width height tables) (settled : Settled key)
    (finds : ∀ n, key = .counted true n → (fetch tables n).isSome = true)
    (moved : keyStep tables key = some (after, next)) :
    Sound width height next ∧ Settled after := by
  cases key with
  | idle => cases moved
  | opened echo table =>
    obtain ⟨lines,-,result⟩ := Option.map_eq_some_iff.mp moved
    cases result
    exact ⟨sound,trivial⟩
  | counted echo n =>
    cases echo with
    | true =>
      rw [keyStep,if_pos (finds n rfl)] at moved
      cases moved
      exact ⟨sound,trivial⟩
    | false =>
      cases moved
      refine ⟨sound,?_⟩
      cases fetch tables n <;> trivial
  | held place =>
    obtain ⟨line,-,result⟩ := Option.map_eq_some_iff.mp moved
    cases result
    exact ⟨sound,trivial⟩
  | measured place n =>
    cases moved
    refine ⟨?_,trivial⟩
    cases removed : remove place n tables with
    | none => exact sound
    | some next => exact remove_sound sound removed
  | missing => exact settled.elim
  | reopened table => exact settled.elim
  | slot n => exact settled.elim

/-- Where the walk may be: the cursor is on a line of the table, and so is the text it draws. -/
def Placed (width height : Nat) : Draw → Prop
  | .ready | .done => True
  | .next w => 1 ≤ w.cursorY ∧ 15 * w.cursorY < height ∧ 9 * (w.cursorX - 1) < width
  | .line w => 1 ≤ w.y
  | .text w str => 1 ≤ w.y ∧ 15 * w.y < height ∧ Fits width str ∧
      (str ≠ [] → 15 * w.y + 12 < height)

/-- Below the last line there is room for the cursor, or the last line is not reached. -/
def RoomBelow (height : Nat) : Prop := height % 15 = 0 ∨ 13 ≤ height % 15

theorem lineAt_shown (sound : Sound width height tables)
    (found : lineAt tables place = some line) :
    15 * (place.index + 1) < height ∧ Fits width line ∧
      (line ≠ [] → 15 * (place.index + 1) + 12 < height) := by
  obtain ⟨lines,table,here⟩ := Option.bind_eq_some_iff.mp found
  have shown := sound.shown lines (List.mem_of_getElem? table)
  obtain ⟨inside,-⟩ := List.getElem?_eq_some_iff.mp here
  have := shown.count
  exact ⟨by omega,shown.fits line (List.mem_of_getElem? here),shown.drawn _ line here⟩

theorem drawStep_placed (wide : 164 ≤ width) (high : 45 ≤ height)
    (sound : Sound width height tables) (placed : Placed width height draw)
    (moved : drawStep tables draw = some (next, pixels)) :
    Placed width height next ∧ (RoomBelow height → ∀ p ∈ pixels, Inside width height p) := by
  cases draw with
  | ready =>
    cases moved
    exact ⟨⟨Nat.le_refl 1,by dsimp only; omega,by dsimp only; omega⟩,fun _ => nofun⟩
  | next w =>
    rw [drawStep] at moved
    split at moved
    · cases moved
      exact ⟨Nat.le_add_left 1 w.y,fun _ => nofun⟩
    · cases moved
      obtain ⟨top,bottom,right⟩ := placed
      refine ⟨trivial,fun room p member => ?_⟩
      have area := rectangle_area (by decide) (by decide) member
      unfold RoomBelow at room
      unfold Inside
      omega
  | line w =>
    obtain ⟨str,found,result⟩ := Option.map_eq_some_iff.mp moved
    cases result
    have here := lineAt_shown sound found
    dsimp only at here
    rw [Nat.sub_add_cancel placed] at here
    exact ⟨⟨placed,here⟩,fun _ => nofun⟩
  | text w str =>
    cases moved
    obtain ⟨top,bottom,fits,row⟩ := placed
    refine ⟨⟨top,bottom,fits.length⟩,fun _ p member => ?_⟩
    have some_ : str ≠ [] := by
      rintro rfl
      exact absurd member List.not_mem_nil
    have area := drawtext_area fits.text member
    have := fits.length
    have := row some_
    unfold Inside
    omega
  | done => cases moved

/-- The tables that are left when the `write` in progress is through. -/
inductive Ahead (width height : Nat) (s : State) (final : Tables) : Prop
  | rest (idle : ∀ task, s.pens task = .idle) (same : s.tables = final)
  | writing (task : Nat) (busy : s.pens task ≠ .idle)
      (others : ∀ other, other ≠ task → s.pens other = .idle)
      (completes : Completes width height s.tables (s.pens task) final)

structure Good (width height : Nat) (s : State) : Prop where
  ahead : ∃ final, Ahead width height s final ∧ Sound width height final
  keys : ∀ task, Settled (s.keys task)
  placed : Placed width height s.draw
  drawn : RoomBelow height → ∀ p ∈ s.drawn, Inside width height p

theorem good_start (wide : 164 ≤ width) (high : 45 ≤ height) : Good width height start :=
  ⟨⟨_,.rest (fun _ => rfl) rfl,sound_clear wide high [] nofun⟩,fun _ => trivial,trivial,
    fun _ => nofun⟩

theorem settled_update {keys : Nat → Key} (settled : ∀ task, Settled (keys task))
    (now : Settled key) (task other : Nat) : Settled (Function.update keys task key other) := by
  by_cases same : other = task
  · rw [same,Function.update_self]
    exact now
  · rw [Function.update_of_ne same]
    exact settled other

/-- A step of another kind finds no `write` in progress. -/
theorem Good.quiet (good : Good width height s) (unbroken : Unbroken s label)
    (other : ∀ task, label ≠ .pen task) :
    (∀ task, s.pens task = .idle) ∧ Sound width height s.tables := by
  obtain ⟨final,ahead,sound⟩ := good.ahead
  cases ahead with
  | rest idle same => exact ⟨idle,same ▸ sound⟩
  | writing task busy => exact absurd (unbroken task busy) (other task)

/-- From sound tables a `write` comes to its end and leaves them sound. -/
theorem Sound.completes (wide : 164 ≤ width) (high : 45 ≤ height)
    (sound : Sound width height tables) (buf : List UInt8) :
    ∃ final, Completes width height tables (.next buf) final ∧ Sound width height final := by
  obtain ⟨earlier,last,now,-⟩ := sound.current
  obtain ⟨lines,shown,-⟩ :=
    Terminal.write_nonempty width height buf (List.concat_ne_nil last earlier)
  have through := write_current width height buf tables
  rw [TerminalTables.current,now,Option.bind_some,shown] at through
  obtain ⟨final,written,-⟩ := Option.bind_eq_some_iff.mp through
  exact ⟨final,completes_write buf written,write_sound wide high buf sound written⟩

theorem Ahead.call {s : State} (idle : ∀ task, s.pens task = .idle) (task : Nat)
    (completes : Completes width height s.tables (.next buf) final) :
    Ahead width height { s with pens := Function.update s.pens task (.next buf) } final := by
  refine .writing task (by simp) (fun other apart => ?_) (by simpa using completes)
  exact (Function.update_of_ne apart _ _).trans (idle other)

theorem Ahead.moved (ahead : Ahead width height s final) (task : Nat)
    (moved : penStep width height s.tables (s.pens task) = some (pen, tables)) :
    Ahead width height { s with tables, pens := Function.update s.pens task pen } final := by
  cases ahead with
  | rest idle =>
    rw [idle task] at moved
    cases moved
  | writing writer busy others completes =>
    have same : task = writer := by
      by_contra apart
      rw [others task apart] at moved
      cases moved
    subst same
    have later := completes.moved moved
    have rest : ∀ other, other ≠ task → Function.update s.pens task pen other = .idle :=
      fun other apart => (Function.update_of_ne apart _ _).trans (others other apart)
    by_cases ended : pen = .idle
    · subst ended
      refine .rest (fun other => ?_) later.ended
      by_cases apart : other = task
      · exact apart ▸ Function.update_self _ _ _
      · exact rest other apart
    · exact .writing task (by simpa using ended) rest (by simpa using later)

theorem good_step (wide : 164 ≤ width) (high : 45 ≤ height) (s : State) (label : Label)
    (next : State) (good : Good width height s) (orderly : Finds s label ∧ Unbroken s label)
    (moved : step width height s label = some next) : Good width height next := by
  obtain ⟨finds,unbroken⟩ := orderly
  cases label with
  | write buf =>
    obtain ⟨idle,sound⟩ := good.quiet unbroken nofun
    obtain ⟨tables,written,rfl⟩ := Option.map_eq_some_iff.mp moved
    exact { good with ahead := ⟨tables,.rest idle rfl,write_sound wide high buf sound written⟩ }
  | clear =>
    obtain ⟨idle,sound⟩ := good.quiet unbroken nofun
    cases moved
    exact { good with ahead := ⟨_,.rest idle rfl,sound_clear wide high s.tables sound.shown⟩ }
  | press task echo =>
    obtain ⟨idle,sound⟩ := good.quiet unbroken nofun
    rw [step] at moved
    split at moved
    · cases moved
      have settled : Settled (.opened echo (s.tables.length - 1)) := trivial
      exact { good with
        ahead := ⟨s.tables,.rest idle rfl,sound⟩
        keys := settled_update good.keys settled task }
    · cases moved
  | key task =>
    obtain ⟨idle,sound⟩ := good.quiet unbroken nofun
    obtain ⟨⟨key,tables⟩,pressed,rfl⟩ := Option.map_eq_some_iff.mp moved
    obtain ⟨sound',settled⟩ := keyStep_sound sound (good.keys task) finds pressed
    exact { good with
      ahead := ⟨tables,.rest idle rfl,sound'⟩
      keys := settled_update good.keys settled task }
  | call task buf =>
    obtain ⟨idle,sound⟩ := good.quiet unbroken nofun
    rw [step] at moved
    split at moved
    · cases moved
      obtain ⟨final,completes,sound'⟩ := sound.completes wide high buf
      exact { good with ahead := ⟨final,.call idle task completes,sound'⟩ }
    · cases moved
  | pen task =>
    obtain ⟨⟨pen,tables⟩,wrote,rfl⟩ := Option.map_eq_some_iff.mp moved
    obtain ⟨final,ahead,sound⟩ := good.ahead
    exact { good with ahead := ⟨final,ahead.moved task wrote,sound⟩ }
  | draw =>
    obtain ⟨idle,sound⟩ := good.quiet unbroken nofun
    obtain ⟨⟨draw,pixels⟩,drew,rfl⟩ := Option.map_eq_some_iff.mp moved
    obtain ⟨placed,inside⟩ := drawStep_placed wide high sound good.placed drew
    refine ⟨⟨s.tables,.rest idle rfl,sound⟩,good.keys,placed,fun room p member => ?_⟩
    rcases List.mem_append.mp member with old | new
    · exact good.drawn room p old
    · exact inside room p new

theorem write_newline (width height : Nat) (old : Tables) (earlier : List Line) (last : Line) :
    write width height [newline] (old ++ [earlier ++ [last]]) =
      some (if height ≤ 15 * (earlier.length + 3)
        then old ++ [earlier ++ [last ++ [newline],[]],[[]]]
        else old ++ [earlier ++ [last ++ [newline],[]]]) := by
  have inserted := insertChar_concat width newline earlier last
  rw [if_pos (Or.inl rfl)] at inserted
  rw [write_singleton,writeChar_concat inserted]
  simp

theorem write_more (n : Nat) (before : write width height (List.replicate n newline) tables =
    some next) : write width height (List.replicate (n + 1) newline) tables =
      write width height [newline] next := by
  rw [write] at before
  rw [List.replicate_succ',write,List.foldlM_append,before]
  rfl

theorem write_newlines (width height : Nat) (old : Tables) (earlier : List Line) (last : Line)
    (n : Nat) (room : 15 * (earlier.length + n + 2) < height) : ∃ earlier' last',
      write width height (List.replicate n newline) (old ++ [earlier ++ [last]]) =
        some (old ++ [earlier' ++ [last']]) ∧ earlier'.length = earlier.length + n := by
  induction n with
  | zero => exact ⟨earlier,last,rfl,rfl⟩
  | succ n ih =>
    obtain ⟨earlier',last',before,length⟩ := ih (by omega)
    refine ⟨earlier' ++ [last' ++ [newline]],[],?_,?_⟩
    · rw [write_more _ before,write_newline,if_neg (by omega)]
      simp
    · rw [List.length_append,List.length_singleton]
      omega

theorem write_clears (width height n : Nat) (old : Tables) (room : 15 * (n + 2) < height)
    (full : height ≤ 15 * (n + 3)) : ∃ lines,
      write width height (List.replicate (n + 1) newline) (old ++ [[[]]]) =
        some (old ++ [lines,[[]]]) ∧ lines.length = n + 2 := by
  obtain ⟨earlier,last,before,length⟩ :=
    write_newlines width height old [] [] n (by simpa using room)
  rw [List.length_nil,Nat.zero_add] at length
  refine ⟨earlier ++ [last ++ [newline],[]],?_,by simp [length]⟩
  rw [List.nil_append] at before
  rw [write_more _ before,write_newline,length,if_pos full]

/-- Undisturbed from here, the walk ends with the cursor at the last line of its table. -/
theorem draw_ends (width height : Nat) (s : State) (left : Nat) (walking : s.draw = .next w)
    (table : s.tables[w.table]? = some lines) (length : lines.length = w.y + left)
    (cursor : left = 0 → w.cursorY = lines.length) : ∃ n t,
      run (step width height) s (List.replicate n .draw) = some t ∧
        ∃ x, ⟨x, lines.length * 15 - 2 + 14, 255, 255, 255⟩ ∈ t.drawn := by
  induction left generalizing s w with
  | zero =>
    have ended : lineAt s.tables ⟨w.table, w.y⟩ = none := by simp [lineAt,table,length]
    refine ⟨1,_,by simp [run,step,drawStep,walking,ended]; rfl,w.cursorX * 8 + 10,
      List.mem_append_right _ ?_⟩
    rw [← cursor rfl]
    exact rectangle_bottom (by decide)
  | succ left ih =>
    obtain ⟨line,here⟩ : ∃ line, lines[w.y]? = some line :=
      ⟨_,List.getElem?_eq_getElem (by omega)⟩
    have found : lineAt s.tables ⟨w.table, w.y⟩ = some line := by simp [lineAt,table,here]
    obtain ⟨n,t,ran,outside⟩ := ih
      { s with
        draw := .next { w with y := w.y + 1, cursorX := line.length, cursorY := w.y + 1 }
        drawn := s.drawn ++ drawtext 10 ((w.y + 1 : Nat) * 15) line }
      rfl table (by dsimp only; omega) (fun none_ => by dsimp only; omega)
    refine ⟨n + 3,t,?_,outside⟩
    simpa [List.replicate_succ,run,step,drawStep,walking,found] using ran

/-- Without calls of `write` by tasks nothing is broken. -/
theorem unbroken_along (width height : Nat) (labels : List Label)
    (none : ∀ task buf, .call task buf ∉ labels) (s : State)
    (idle : ∀ task, s.pens task = .idle) : Along (step width height) Unbroken s labels := by
  induction labels generalizing s with
  | nil => trivial
  | cons label rest ih =>
    refine ⟨fun task busy => absurd (idle task) busy,fun next moved => ?_⟩
    refine ih (fun task buf member => none task buf (List.mem_cons_of_mem _ member)) next ?_
    cases label with
    | call task buf => exact absurd List.mem_cons_self (none task buf)
    | pen task =>
      rw [step,idle task] at moved
      cases moved
    | press task echo =>
      rw [step] at moved
      split at moved
      · cases moved
        exact idle
      · cases moved
    | clear =>
      cases moved
      exact idle
    | write buf | key task | draw =>
      obtain ⟨_,-,rfl⟩ := Option.map_eq_some_iff.mp moved
      exact idle

theorem finds_along (width height : Nat) (labels : List Label)
    (none : ∀ task, .key task ∉ labels) (s : State) : Along (step width height) Finds s labels :=
  along_of_forall (fun label member s => by
    cases label with
    | key task => exact absurd member (none task)
    | _ => trivial) s

/-- The walk holds a table that is filled and replaced: its last line is too low for the
cursor. -/
theorem cleared_outside (width : Nat) (high : 45 ≤ height) (low : ¬RoomBelow height) :
    ∃ labels s, run (step width height) start labels = some s ∧
      Along (step width height) Finds start labels ∧
      Along (step width height) Unbroken start labels ∧ ∃ p ∈ s.drawn, height ≤ p.y := by
  obtain ⟨n,quotient⟩ : ∃ n, height / 15 = n + 2 := ⟨height / 15 - 2,by omega⟩
  unfold RoomBelow at low
  obtain ⟨lines,written,length⟩ := write_clears width height n [] (by omega) (by omega)
  obtain ⟨k,t,ran,x,outside⟩ := draw_ends width height
    { start with tables := [lines,[[]]], draw := .next ⟨0, 0, 0, 1⟩ } (n + 2) rfl rfl
    (by simpa using length) (fun none_ => absurd none_ (Nat.succ_ne_zero _))
  refine ⟨[.draw, .write (List.replicate (n + 1) newline)] ++ List.replicate k .draw,t,?_,
    finds_along _ _ _ (by simp) _,unbroken_along _ _ _ (by simp) _ (fun _ => rfl),_,outside,
    by dsimp only; omega⟩
  refine (run_append _ _ _ _).mpr ⟨_,?_,ran⟩
  rw [List.nil_append] at written
  simp [run,step,drawStep,start,written]

/-- A key press whose table is filled and replaced before its length is taken: the new table has
no such line. -/
theorem press_missing (task : Nat) (s : State) (idle : s.keys task = .idle)
    (tables : s.tables = old ++ [lines])
    (written : write width height buf s.tables = some (old ++ [filled,[[]]]))
    (more : 2 ≤ filled.length) :
    run (step width height) s [.press task true, .write buf, .key task, .key task] =
      some { s with
        tables := old ++ [filled,[[]]]
        keys := Function.update s.keys task .missing } := by
  have table : (old ++ [filled,[[]]])[s.tables.length - 1]? = some filled := by simp [tables]
  have gone : fetch (old ++ [filled,[[]]]) filled.length = none := by
    have beyond : [([] : Line)][filled.length - 1]? = none := by
      rw [List.getElem?_eq_none_iff,List.length_singleton]
      omega
    simp [fetch,lineAt,beyond]
  simp [run,step,idle,written,keyStep,table,gone]

theorem missing_appends (width height task : Nat) (s : State) (missing : s.keys task = .missing)
    (old : Tables) (lines : List Line) (tables : s.tables = old ++ [lines]) :
    run (step width height) s [.key task, .key task, .key task] =
      some { s with
        tables := old ++ [lines ++ [[]]]
        keys := Function.update s.keys task .idle } := by
  simp [run,step,missing,keyStep,tables,append]

/-- A walk on a table that is full already: the next newline adds one more line, and the walk
comes to it. -/
theorem overfull_outside (width height : Nat) (old : Tables) (earlier : List Line) (s : State)
    (tables : s.tables = old ++ [earlier ++ [[]]])
    (walking : s.draw = .next ⟨old.length, 0, 0, 1⟩)
    (full : height ≤ 15 * (earlier.length + 2)) :
    ∃ k t, run (step width height) s (.write [newline] :: List.replicate k .draw) = some t ∧
      ∃ p ∈ t.drawn, height ≤ p.y := by
  have written := write_newline width height old earlier []
  rw [if_pos (by omega),← tables] at written
  let lines := earlier ++ [[] ++ [newline],[]]
  have table : (old ++ [lines,[[]]])[old.length]? = some lines := by simp
  obtain ⟨k,t,ran,x,outside⟩ := draw_ends width height { s with tables := old ++ [lines,[[]]] }
    (earlier.length + 2) walking table (by simp [lines])
    (fun none_ => absurd none_ (Nat.succ_ne_zero _))
  refine ⟨k,t,(run_cons _ _ _ _).mpr ⟨_,by rw [step,written]; rfl,ran⟩,_,outside,?_⟩
  simp only [lines,List.length_append,List.length_cons,List.length_nil]
  omega

/-- The line that a key press adds is not tested against the height. -/
theorem missing_outside (width : Nat) (high : 45 ≤ height) :
    ∃ labels s, run (step width height) start labels = some s ∧
      Along (step width height) Unbroken start labels ∧ ∃ p ∈ s.drawn, height ≤ p.y := by
  obtain ⟨n,quotient⟩ : ∃ n, (height - 1) / 15 = n + 2 := ⟨(height - 1) / 15 - 2,by omega⟩
  obtain ⟨first,written,length⟩ := write_clears width height n [] (by omega) (by omega)
  have pressed := press_missing 0 start rfl rfl written (by omega)
  obtain ⟨earlier,last,again,length'⟩ :=
    write_newlines width height [first] [] [] n (by simp only [List.length_nil]; omega)
  rw [List.length_nil,Nat.zero_add] at length'
  let keys := Function.update start.keys 0 .missing
  let walk : State := ⟨[first,earlier ++ [last]], keys, start.pens, .next ⟨1, 0, 0, 1⟩, []⟩
  have begun : run (step width height) ⟨[first,[[]]], keys, start.pens, .ready, []⟩
      [.draw, .write (List.replicate n newline)] = some walk := by
    simp only [List.nil_append,List.cons_append] at again
    simp [run,step,drawStep,again,walk]
  have appended := missing_appends width height 0 walk rfl [first] _ rfl
  obtain ⟨k,t,ran,outside⟩ := overfull_outside width height [first] (earlier ++ [last])
    { walk with
      tables := [first] ++ [earlier ++ [last] ++ [[]]]
      keys := Function.update walk.keys 0 .idle }
    rfl rfl (by simp only [List.length_append,List.length_singleton]; omega)
  have whole := (run_append _ _ _ _).mpr ⟨_,pressed,(run_append _ _ _ _).mpr ⟨_,begun,
    (run_append _ _ _ _).mpr ⟨_,appended,ran⟩⟩⟩
  exact ⟨_,t,whole,unbroken_along _ _ _ (by simp) _ (fun _ => rfl),outside⟩

/-- A task that calls `write` with a newline, up to the new line. -/
theorem call_adds (width height task : Nat) (s : State) (idle : s.pens task = .idle)
    (old : Tables) (earlier : List Line) (last : Line)
    (tables : s.tables = old ++ [earlier ++ [last]]) :
    run (step width height) s (.call task [newline] :: List.replicate 7 (.pen task)) =
      some { s with
        tables := old ++ [earlier ++ [last ++ [newline]] ++ [[]]]
        pens := Function.update s.pens task (.testing []) } := by
  simp [run,step,idle,penStep,tables,fetch,lineAt,insertAt,modify_last]

/-- It is suspended before the test, and the walk begins. -/
theorem broken_outside (width : Nat) (high : 45 ≤ height) :
    ∃ labels s, run (step width height) start labels = some s ∧
      Along (step width height) Finds start labels ∧ ∃ p ∈ s.drawn, height ≤ p.y := by
  obtain ⟨n,quotient⟩ : ∃ n, (height - 1) / 15 = n + 2 := ⟨(height - 1) / 15 - 2,by omega⟩
  obtain ⟨earlier,last,written,length⟩ :=
    write_newlines width height [] [] [] n (by simp only [List.length_nil]; omega)
  rw [List.length_nil,Nat.zero_add] at length
  have filled : run (step width height) start [.write (List.replicate n newline)] =
      some { start with tables := [] ++ [earlier ++ [last]] } := by
    simp only [List.nil_append] at written
    simp [run,step,start,written]
  have added := call_adds width height 0
    { start with tables := [] ++ [earlier ++ [last]] } rfl [] earlier last rfl
  obtain ⟨k,t,ran,outside⟩ := overfull_outside width height [] (earlier ++ [last ++ [newline]])
    { start with
      tables := [] ++ [earlier ++ [last ++ [newline]] ++ [[]]]
      pens := Function.update start.pens 0 (.testing [])
      draw := .next ⟨0, 0, 0, 1⟩ }
    rfl rfl (by simp only [List.length_append,List.length_singleton]; omega)
  have whole := (run_append _ _ _ _).mpr ⟨_,filled,(run_append _ _ _ _).mpr ⟨_,added,
    (run_cons _ _ .draw _).mpr ⟨_,rfl,ran⟩⟩⟩
  exact ⟨_,t,whole,finds_along _ _ _ (by simp) _,outside⟩

theorem not_inside_of_below {height : Nat} {p : Putpixel} (below : height ≤ p.y) :
    ¬Inside width height p :=
  fun inside => absurd inside.2.2 (Int.not_lt.mpr below)

/-- As long as every key press finds its line and no task is suspended in a `write` of its own,
the heights that keep the drawing on the screen are those with room below the last line. Without
either of the two no height does. -/
theorem draw_inside_iff (width height : Nat) (wide : 164 ≤ width) (high : 45 ≤ height) :
    ((∀ labels s, run (step width height) start labels = some s →
        Along (step width height) Finds start labels →
        Along (step width height) Unbroken start labels → ∀ p ∈ s.drawn, Inside width height p) ↔
      height % 15 = 0 ∨ 13 ≤ height % 15) ∧
    (∃ labels s, run (step width height) start labels = some s ∧
      Along (step width height) Unbroken start labels ∧ ∃ p ∈ s.drawn, ¬Inside width height p) ∧
    ∃ labels s, run (step width height) start labels = some s ∧
      Along (step width height) Finds start labels ∧ ∃ p ∈ s.drawn, ¬Inside width height p := by
  refine ⟨⟨fun inside => ?_,fun room labels s ran finds unbroken => ?_⟩,?_,?_⟩
  · by_contra low
    obtain ⟨labels,s,ran,finds,unbroken,p,member,below⟩ := cleared_outside width high low
    exact not_inside_of_below below (inside labels s ran finds unbroken p member)
  · have good : Good width height s :=
      along_invariant (good_step wide high) (along_and finds unbroken) ran (good_start wide high)
    exact good.drawn room
  · obtain ⟨labels,s,ran,unbroken,p,member,below⟩ := missing_outside width high
    exact ⟨labels,s,ran,unbroken,p,member,not_inside_of_below below⟩
  · obtain ⟨labels,s,ran,finds,p,member,below⟩ := broken_outside width high
    exact ⟨labels,s,ran,finds,p,member,not_inside_of_below below⟩

/-- Two lines, one of which grows while the other is drawn; the screen is cleared before the
cursor is drawn. -/
def twoLines : List Label :=
  [.write [104, 105, 10], .draw, .draw, .write [97], .draw, .draw, .draw, .draw, .clear, .draw,
    .draw]

theorem twoLines_inside : ∃ s, run (step 800 600) start twoLines = some s ∧
    ∀ p ∈ s.drawn, Inside 800 600 p := by
  have ends : (run (step 800 600) start twoLines).isSome = true := by decide +kernel
  obtain ⟨s,ran⟩ := Option.isSome_iff_exists.mp ends
  exact ⟨s,ran,(draw_inside_iff 800 600 (by decide) (by decide)).1.mpr (Or.inl rfl) twoLines s ran
    (finds_along _ _ _ (by simp [twoLines]) _)
    (unbroken_along _ _ _ (by simp [twoLines]) _ fun _ => rfl)⟩

theorem below_of_any {height : Nat} (found : (run (step width height) start labels).any
      (fun s => s.drawn.any fun p => height ≤ p.y) = true) :
    ∃ s, run (step width height) start labels = some s ∧ ∃ p ∈ s.drawn, height ≤ p.y := by
  obtain ⟨s,ran,below⟩ := Option.any_eq_true _ _ |>.mp found
  exact ⟨s,ran,by simpa using below⟩

/-- At 1024 by 768: the screen is filled and cleared after the walk has begun. -/
def clearedWalk : List Label :=
  [.draw, .write (List.replicate 50 newline)] ++ List.replicate 154 .draw

/-- At 800 by 600: a key is pressed, and the screen is cleared before the key's line is looked
up. -/
def missingLine : List Label :=
  [.press 0 true, .write (List.replicate 38 newline), .key 0, .key 0, .draw,
    .write (List.replicate 37 newline), .key 0, .key 0, .key 0, .write [newline]] ++
      List.replicate 121 .draw

/-- At 800 by 600: a task that writes a newline itself is suspended before its test. -/
def brokenWrite : List Label :=
  [.write (List.replicate 37 newline), .call 0 [newline]] ++ List.replicate 7 (.pen 0) ++
    [.draw, .write [newline]] ++ List.replicate 121 .draw

theorem cursor_below_screen :
    (∃ s, run (step 1024 768) start clearedWalk = some s ∧ ∃ p ∈ s.drawn, 768 ≤ p.y) ∧
      (∃ s, run (step 800 600) start missingLine = some s ∧ ∃ p ∈ s.drawn, 600 ≤ p.y) ∧
      ∃ s, run (step 800 600) start brokenWrite = some s ∧ ∃ p ∈ s.drawn, 600 ≤ p.y :=
  ⟨below_of_any (by decide +kernel),below_of_any (by decide +kernel),
    below_of_any (by decide +kernel)⟩

end LuaKernel.DrawTerminal
