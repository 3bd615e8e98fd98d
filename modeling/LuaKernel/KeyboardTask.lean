import LuaKernel.CommandLine
import LuaKernel.Keyboard

/-! From the keyboard's interrupt to the terminal. `keyboard_task` fetches the queue and handles
the scancodes it got one by one, while interrupts queue others between any two instructions and
other text is written between any two keys. Only this task fetches the queue and handles keys. A
command that is entered may do anything; after one that does more than print, nothing is said of
the task. -/
namespace LuaKernel.KeyboardTask

open Runs Keyboard CommandLine
open Terminal (Line newline)
open TerminalTables (Tables current)

inductive Task
  /-- before or in `get_keyboard_interrupt` -/
  | polling
  /-- in the loop over the table, with the scancodes that are left -/
  | handling (batch : List UInt32)
  /-- a command has changed what the task runs on -/
  | lost (batch : List UInt32)
  /-- an error has ended it -/
  | dead

def Task.batch : Task → List UInt32
  | .handling batch | .lost batch => batch
  | _ => []

structure System where
  keyboard : Keyboard.State
  task : Task
  console : Console

inductive Label
  /-- an interrupt, `hlt`, or a step of `get_keyboard_interrupt` -/
  | machine (label : Keyboard.Label)
  /-- `key_pressed(scancode)`; if it enters a command, or a line that is none, `printed` is what
  that prints -/
  | key (scancode : UInt32) (printed : List UInt8)
  /-- `key_pressed(scancode)` enters a command that does more, and leaves the terminal like this -/
  | command (scancode : UInt32) (tables : Tables)
  /-- other text is written -/
  | output (buf : List UInt8)
  /-- the loop ends, and `wait` returns -/
  | wait

section Display

variable (width height : Nat)

/-- The command that a line is, by what it prints, or the message of `load`. -/
def command (printed : List UInt8) : Console × Option Line → Option Console
  | (console, none) => some console
  | (console, some _) =>
    (TerminalTables.write width height printed console.tables).map (⟨console.keys, ·⟩)

def press (scancode : UInt32) (printed : List UInt8) (console : Console) : Option Console :=
  (keyPressed width height scancode.toNat console).bind (command width height printed)

def AtRest (s : Keyboard.State) : Prop := s.place = .lua ∧ s.outer = []

instance (s : Keyboard.State) : Decidable (AtRest s) :=
  inferInstanceAs (Decidable (s.place = .lua ∧ s.outer = []))

def step (s : System) : Label → Option System
  | .machine label =>
    (Keyboard.step s.keyboard label).bind fun keyboard =>
      match label, s.task with
      | .call, .polling => if s.keyboard.outer = [] then some { s with keyboard := keyboard }
        else none
      | .call, _ => none
      | .ret table, _ => some { s with keyboard := keyboard, task := .handling table }
      | .fail _, _ => some { s with keyboard := keyboard, task := .dead }
      | _, _ => some { s with keyboard := keyboard }
  | .key scancode printed =>
    match s.task with
    | .handling (next :: rest) =>
      if AtRest s.keyboard ∧ next = scancode then
        match press width height scancode printed s.console with
        | some console => some { s with task := .handling rest, console := console }
        | none => some { s with task := .dead }
      else none
    | _ => none
  | .command scancode tables =>
    match s.task, keyPressed width height scancode.toNat s.console with
    | .handling (next :: rest), some (console, some _) =>
      if AtRest s.keyboard ∧ next = scancode then
        some { s with task := .lost rest, console := ⟨console.keys, tables⟩ }
      else none
    | _, _ => none
  | .output buf =>
    if s.keyboard.place = .lua then
      (TerminalTables.write width height buf s.console.tables).map fun tables =>
        { s with console := ⟨s.console.keys, tables⟩ }
    else none
  | .wait =>
    match s.task with
    | .handling [] => if AtRest s.keyboard then some { s with task := .polling } else none
    | _ => none

end Display

def boot (memory : Nat → UInt32) : System := ⟨Keyboard.boot memory, .polling, CommandLine.boot⟩

/-- What the keys are for: a key, with what the command it enters prints, or other text. -/
inductive Stroke
  | key (scancode : UInt32) (printed : List UInt8)
  | output (buf : List UInt8)

structure Screen where
  keys : Keys.State
  lines : List Line

def ops (printed : List UInt8) : Option Keys.Action → List Terminal.Op
  | none | some .tilda => []
  | some .backspace => [.backspace]
  | some .enter => [.stdout [newline], .stdout printed]
  | some .clear => [.ctrlL]
  | some (.echo c) => [.stdout [c]]

def strike (width height : Nat) (s : Screen) : Stroke → Option Screen
  | .key scancode printed =>
    let (keys, action) := Keys.keyPressed scancode.toNat s.keys
    (run (Terminal.step width height) s.lines (ops printed action)).map (⟨keys, ·⟩)
  | .output buf => (Terminal.write width height buf s.lines).map (⟨s.keys, ·⟩)

section Keys

variable {width height : Nat}

structure Shows (width height : Nat) (console : Console) (screen : Screen) : Prop where
  keys : console.keys = screen.keys
  lines : current console.tables = some screen.lines
  tidy : Terminal.Tidy width height screen.lines

theorem write_shown (positive : 1 ≤ width) (now : current tables = some lines)
    (tidy : Terminal.Tidy width height lines) (buf : List UInt8) :
    ∃ tables' lines', TerminalTables.write width height buf tables = some tables' ∧
      Terminal.write width height buf lines = some lines' ∧ current tables' = some lines' ∧
      Terminal.Tidy width height lines' := by
  obtain ⟨lines',written,tidy'⟩ := Terminal.write_tidy positive buf tidy
  have both := TerminalTables.write_current width height buf tables
  rw [now,Option.bind_some,written] at both
  obtain ⟨tables',result,shown⟩ := Option.bind_eq_some_iff.mp both
  exact ⟨tables',lines',result,written,shown,tidy'⟩

theorem tables_split (now : current tables = some lines) (tidy : Terminal.Tidy width height lines) :
    ∃ old earlier line, tables = old ++ [earlier ++ [line]] ∧ lines = earlier ++ [line] := by
  obtain ⟨earlier,line,rfl,-⟩ := tidy.split
  obtain ⟨old,rfl⟩ := List.getLast?_eq_some_iff.mp now
  exact ⟨old,earlier,line,rfl,rfl⟩

/-- The line taken before the newline is written is still there. -/
theorem enter_line (old : Tables) (earlier : List Line) (line : Line)
    (written : TerminalTables.write width height [newline] (old ++ [earlier ++ [line]]) =
      some tables) :
    TerminalTables.lineAt tables ⟨old.length, earlier.length⟩ = some (line ++ [newline]) := by
  have inserted := TerminalTables.insertChar_concat width newline earlier line
  rw [if_pos (Or.inl rfl)] at inserted
  rw [TerminalTables.write_singleton,TerminalTables.writeChar_concat inserted height old] at written
  rw [← Option.some.inj written]
  split_ifs <;> simp [TerminalTables.lineAt]

/-- The action on the console, with the command it may run, is its operations on the lines. -/
structure Performed (width height : Nat) (keys : Keys.State) (action : Keys.Action)
    (printed : List UInt8) (tables : Tables) (lines : List Line) (console : Console)
    (next : List Line) : Prop where
  done : ((perform width height action tables).bind fun result =>
    command width height printed (⟨keys, result.1⟩, result.2)) = some console
  ran : run (Terminal.step width height) lines (ops printed (some action)) = some next
  shows : Shows width height console ⟨keys, next⟩

theorem perform_shown (positive : 1 ≤ width) (now : current tables = some lines)
    (tidy : Terminal.Tidy width height lines) (keys : Keys.State) (action : Keys.Action)
    (printed : List UInt8) :
    ∃ console next, Performed width height keys action printed tables lines console next := by
  obtain ⟨old,earlier,line,shape,same⟩ := tables_split now tidy
  have last : TerminalTables.lastLine tables = some ⟨old.length, earlier.length⟩ := by
    simp [shape,TerminalTables.lastLine]
  have there : TerminalTables.lineAt tables ⟨old.length, earlier.length⟩ = some line := by
    simp [shape,TerminalTables.lineAt]
  cases action with
  | backspace =>
    obtain ⟨next,removed,tidy'⟩ := Terminal.backspace_tidy tidy
    have lines' : next = earlier ++ [line.dropLast] := by
      simpa [Terminal.backspace,same] using removed.symm
    refine ⟨⟨keys, old ++ [earlier ++ [line.dropLast]]⟩,next,?_,?_,rfl,?_,tidy'⟩
    · have erased := TerminalTables.remove_last old earlier line
      rw [← shape] at erased
      simp [perform,last,there,erased,command]
    · simp [ops,run,Terminal.step,removed]
    · simp [current,lines']
  | enter =>
    obtain ⟨middle,lines',written,written',shown,tidy'⟩ := write_shown positive now tidy [newline]
    obtain ⟨tables',next,printed',printed'',shown',tidy''⟩ :=
      write_shown positive shown tidy' printed
    have loaded := enter_line old earlier line (shape ▸ written)
    refine ⟨⟨keys, tables'⟩,next,?_,?_,rfl,shown',tidy''⟩
    · simp [perform,last,written,loaded,command,printed']
    · simp [ops,run,Terminal.step,written',printed'']
  | clear =>
    refine ⟨⟨keys, TerminalTables.clear tables⟩,[[]],rfl,rfl,rfl,?_,Terminal.tidy_start _ _⟩
    simp [current,TerminalTables.clear]
  | tilda => exact ⟨⟨keys, tables⟩,lines,rfl,rfl,rfl,now,tidy⟩
  | echo c =>
    obtain ⟨tables',next,written,written',shown,tidy'⟩ := write_shown positive now tidy [c]
    refine ⟨⟨keys, tables'⟩,next,?_,?_,rfl,shown,tidy'⟩
    · simp [perform,last,written,command]
    · simp [ops,run,Terminal.step,written']

theorem press_shown (positive : 1 ≤ width) (shows : Shows width height console screen)
    (scancode : UInt32) (printed : List UInt8) :
    ∃ console' screen', press width height scancode printed console = some console' ∧
      strike width height screen (.key scancode printed) = some screen' ∧
      Shows width height console' screen' := by
  obtain ⟨same,now,tidy⟩ := shows
  simp only [press,keyPressed,strike,same]
  cases Keys.keyPressed scancode.toNat screen.keys with
  | mk keys action =>
    cases action with
    | none => exact ⟨⟨keys, console.tables⟩,⟨keys, screen.lines⟩,rfl,rfl,rfl,now,tidy⟩
    | some action =>
      obtain ⟨console',next,done,ran,shows'⟩ :=
        perform_shown positive now tidy keys action printed
      refine ⟨console',⟨keys, next⟩,?_,by simp [ran],shows'⟩
      simpa [Option.bind_map,Function.comp_def] using done

end Keys

def event : Label → List (Mailbox.Event UInt32)
  | .machine label => Keyboard.event label
  | _ => []

def handled : Label → List UInt32
  | .key scancode _ | .command scancode _ => [scancode]
  | _ => []

def stroke : Label → List Stroke
  | .key scancode printed => [.key scancode printed]
  | .output buf => [.output buf]
  | _ => []

/-- Control is in `get_keyboard_interrupt`, or in a finalizer it runs. -/
def Fetching (s : Keyboard.State) : Prop :=
  s.outer ≠ [] ∨ (s.place ≠ .lua ∧ s.place ≠ .hlt)

structure Good (width height : Nat) (labels : List Label) (s : System) : Prop where
  sound : Keyboard.Good s.keyboard
  calls : Fetching s.keyboard → s.task = .polling
  box : box (labels.flatMap handled ++ s.task.batch) s.keyboard =
    Mailbox.deliverAll capacity ⟨[], []⟩ (labels.flatMap event)
  screen : (∀ batch, s.task ≠ .lost batch) → ∃ screen,
    run (strike width height) ⟨Keys.boot, [[]]⟩ (labels.flatMap stroke) = some screen ∧
      Shows width height s.console screen
  lost : ∀ {batch}, s.task = .lost batch → ∃ scancode tables, .command scancode tables ∈ labels
  alive : s.task = .dead → ∃ levels, .machine (.fail levels) ∈ labels

theorem good_boot (width height : Nat) (memory : Nat → UInt32) :
    Good width height [] (boot memory) where
  sound := Keyboard.good_boot memory
  calls := by simp [Fetching,boot,Keyboard.boot]
  box := rfl
  screen := fun _ => ⟨_,rfl,rfl,rfl,Terminal.tidy_start width height⟩
  lost := nofun
  alive := nofun

theorem raises_fetching (raises : Raises s levels) : Fetching s := by
  obtain ⟨inside,from_⟩ := raises
  cases here : s.place <;> simp only [here] at from_
  case lua =>
    refine Or.inl fun none => ?_
    rw [none,List.length_nil] at inside
    omega
  case create | loop => exact Or.inr (by simp [here])

theorem fetching_before (s t : Keyboard.State) (moved : Keyboard.step s label = some t)
    (other : label ≠ .call) (inside : Fetching t) : Fetching s := by
  cases step_moves s t moved with
  | interrupt on scancode =>
    obtain ⟨place,-,-,outer⟩ := handleKeyboard_frame scancode (goto s (wake s.place))
    rw [Fetching,place,outer] at inside
    cases here : s.place <;> simp_all [Fetching,goto,wake]
  | other on => cases here : s.place <;> simp_all [Fetching,goto,wake]
  | call => exact absurd rfl other
  | hlt from_ => simpa [Fetching,goto,from_] using inside
  | ret from_ => exact Or.inr (by simp [from_])
  | fail raises => exact raises_fetching raises
  | finalized from_ within => exact Or.inl (by simp [within])
  | cli from_ | create from_ | finalize from_ | clear from_ | sti from_ =>
    exact Or.inr (by simp [from_])
  | push from_ _ | exit from_ _ => exact Or.inr (by simp [from_])

theorem atRest_outside (rest : AtRest s) : ¬Fetching s := by
  rintro (inside | ⟨outside,-⟩)
  · exact inside rest.2
  · exact outside rest.1

section Steps

variable {width height : Nat} {labels : List Label} {s : System}

/-- A step of the machine that leaves the task with the scancodes it has and those it is given. -/
theorem Good.machine (good : Good width height labels s)
    (moved : Keyboard.step s.keyboard label = some keyboard) (apart : Apart s.keyboard label)
    (task : Task)
    (calls : Fetching keyboard → task = .polling)
    (batch : task.batch = s.task.batch ++ returned label)
    (lost : ∀ {batch}, task = .lost batch ↔ s.task = .lost batch)
    (alive : task = .dead → s.task = .dead ∨ ∃ levels, label = .fail levels) :
    Good width height (labels ++ [.machine label])
      { s with keyboard := keyboard, task := task } where
  sound := good_step s.keyboard keyboard good.sound apart moved
  calls := calls
  box := by
    have next := box_step s.keyboard keyboard good.sound moved
      (labels.flatMap handled ++ s.task.batch)
    rw [good.box,← Mailbox.deliverAll_append,List.append_assoc] at next
    simpa [batch,event,handled] using next
  screen := fun present => by
    simpa [stroke] using good.screen fun batch gone => present batch (lost.mpr gone)
  lost := fun gone => by
    obtain ⟨scancode,tables,member⟩ := good.lost (lost.mp gone)
    exact ⟨scancode,tables,List.mem_append_left _ member⟩
  alive := fun dead => by
    rcases alive dead with dead | ⟨levels,rfl⟩
    · obtain ⟨levels,member⟩ := good.alive dead
      exact ⟨levels,List.mem_append_left _ member⟩
    · exact ⟨levels,by simp⟩

theorem Good.machine_step (good : Good width height labels s)
    (moved : step width height s (.machine label) = some next) :
    Good width height (labels ++ [.machine label]) next := by
  obtain ⟨keyboard,stepped,after⟩ := Option.bind_eq_some_iff.mp moved
  have other (apart : Apart s.keyboard label) (quiet : returned label = [])
      (same : next = { s with keyboard := keyboard })
      (inside : Fetching keyboard → s.task = .polling) :
      Good width height (labels ++ [.machine label]) next := by
    rw [same]
    exact good.machine stepped apart s.task inside (by simp [quiet]) Iff.rfl Or.inl
  cases label with
  | call =>
    cases here : s.task with
    | polling =>
      simp only [here,Option.ite_none_right_eq_some,Option.some.injEq] at after
      exact other (fun _ => after.1) rfl (by simp [← after.2,here]) fun _ => here
    | handling | lost | dead => simp [here] at after
  | ret table =>
    obtain rfl := Option.some.inj after
    cases step_moves _ _ stepped with
    | ret from_ =>
      have polling : s.task = .polling := good.calls (Or.inr (by simp [from_]))
      refine good.machine stepped (apart_other _ (by simp)) (.handling _) (fun inside => ?_)
        (by simp [polling,Task.batch,returned]) (by simp [polling]) (by simp)
      have outermost := good.sound.outermost (by simp [from_])
      simp [Fetching,goto,outermost] at inside
  | fail levels =>
    obtain rfl := Option.some.inj after
    cases step_moves _ _ stepped with
    | fail raises =>
      have polling := good.calls (raises_fetching raises)
      refine good.machine stepped (apart_other _ (by simp)) .dead (fun inside => ?_)
        (by simp [polling,Task.batch,returned]) (by simp [polling]) fun _ => Or.inr ⟨levels,rfl⟩
      simp [Fetching,goto,good.sound.unwound raises] at inside
  | _ =>
    exact other (apart_other _ (by simp)) rfl (Option.some.inj after).symm fun inside =>
      good.calls (fetching_before _ _ stepped (by simp) inside)

/-- The task goes on by itself only outside of the function. -/
theorem Good.key_step (positive : 1 ≤ width) (good : Good width height labels s)
    (moved : step width height s (.key scancode printed) = some next) :
    Good width height (labels ++ [.key scancode printed]) next := by
  simp only [step] at moved
  split at moved
  · rename_i first rest here
    split at moved
    · rename_i outside
      obtain ⟨atRest,same⟩ := outside
      rw [same] at here
      obtain ⟨screen,struck,shows⟩ := good.screen (by simp [here])
      obtain ⟨console,screen',pressed,stroke',shows'⟩ := press_shown positive shows scancode printed
      rw [pressed] at moved
      obtain rfl := Option.some.inj moved
      refine ⟨good.sound,fun inside => absurd inside (atRest_outside atRest),?_,
        fun _ => ⟨screen',?_,shows'⟩,nofun,nofun⟩
      · have box := good.box
        rw [here] at box
        simpa [event,handled,Task.batch] using box
      · rw [List.flatMap_append,run_append]
        exact ⟨screen,struck,by simp [stroke,run,stroke']⟩
    · cases moved
  · cases moved

theorem Good.command_step (good : Good width height labels s)
    (moved : step width height s (.command scancode tables) = some next) :
    Good width height (labels ++ [.command scancode tables]) next := by
  simp only [step] at moved
  split at moved
  · rename_i here _
    split at moved
    · rename_i outside
      obtain ⟨atRest,rfl⟩ := outside
      obtain rfl := Option.some.inj moved
      refine ⟨good.sound,fun inside => absurd inside (atRest_outside atRest),?_,
        fun present => absurd rfl (present _),fun _ => ⟨_,_,List.mem_concat_self⟩,nofun⟩
      have box := good.box
      rw [here] at box
      simpa [event,handled,Task.batch] using box
    · cases moved
  · cases moved

theorem Good.output_step (positive : 1 ≤ width) (good : Good width height labels s)
    (moved : step width height s (.output buf) = some next) :
    Good width height (labels ++ [.output buf]) next := by
  simp only [step,Option.ite_none_right_eq_some,Option.map_eq_some_iff] at moved
  obtain ⟨-,tables,written,rfl⟩ := moved
  refine ⟨good.sound,good.calls,by simpa [event,handled] using good.box,fun present => ?_,
    fun gone => ?_,fun dead => ?_⟩
  · obtain ⟨screen,struck,keys,now,tidy⟩ := good.screen present
    obtain ⟨tables',lines,same,printed,shown,tidy'⟩ := write_shown positive now tidy buf
    obtain rfl := Option.some.inj (written.symm.trans same)
    refine ⟨⟨screen.keys, lines⟩,?_,keys,shown,tidy'⟩
    rw [List.flatMap_append,run_append]
    exact ⟨screen,struck,by simp [stroke,run,strike,printed]⟩
  · obtain ⟨scancode,tables,member⟩ := good.lost gone
    exact ⟨scancode,tables,List.mem_append_left _ member⟩
  · obtain ⟨levels,member⟩ := good.alive dead
    exact ⟨levels,List.mem_append_left _ member⟩

theorem Good.wait_step (good : Good width height labels s)
    (moved : step width height s .wait = some next) :
    Good width height (labels ++ [.wait]) next := by
  simp only [step] at moved
  split at moved
  · rename_i here
    split at moved
    · obtain rfl := Option.some.inj moved
      have box := good.box
      rw [here] at box
      exact ⟨good.sound,fun _ => rfl,by simpa [event,handled,Task.batch] using box,
        fun _ => by simpa [stroke] using good.screen (by simp [here]),nofun,nofun⟩
    · cases moved
  · cases moved

end Steps

theorem run_good (width height : Nat) (positive : 1 ≤ width) (memory : Nat → UInt32)
    (ran : run (step width height) (boot memory) labels = some s) :
    Good width height labels s := by
  refine run_history (P := Good width height) (fun _ => True) (good_boot width height memory) ?_
    (fun _ _ => trivial) ran
  rintro history s label next good - moved
  cases label with
  | machine label => exact good.machine_step moved
  | key scancode printed => exact good.key_step positive moved
  | command scancode tables => exact good.command_step moved
  | output buf => exact good.output_step positive moved
  | wait => exact good.wait_step moved

/-- Two keys before the task fetches the queue and one while it does. It has handled the first,
and another task has printed a character. -/
def twoOfThree : List Label :=
  [.machine (.interrupt 0x1e), .machine (.interrupt 0x0e), .machine .call, .machine .cli,
    .machine .create, .machine .push, .machine .push, .machine .exit, .machine .clear,
    .machine .sti, .machine (.interrupt 0x1c), .machine (.ret [0x1e, 0x0e]), .key 0x1e [],
    .output [0x21]]

end LuaKernel.KeyboardTask
