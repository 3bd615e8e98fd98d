import LuaKernel.TerminalTables

/-! A `write` to standard output as a task runs it that calls it directly, from one look at the
shared tables to the next. Undisturbed it does what one `write` does; a system call runs it on the
main state, which has no hook, so there it is one step. -/
namespace LuaKernel.TerminalTables

open Terminal

inductive Pen
  | idle
  | next (rest : List UInt8)
  | opened (c : UInt8) (rest : List UInt8) (table : Nat)
  | counted (c : UInt8) (rest : List UInt8) (n : Nat)
  | held (c : UInt8) (rest : List UInt8) (line : Place)
  | inserted (c : UInt8) (rest : List UInt8) (line : Place)
  | full (rest : List UInt8)
  | adding (rest : List UInt8) (table : Nat)
  | testing (rest : List UInt8)
  | measured (rest : List UInt8) (table : Nat)
  | clearing (rest : List UInt8)

def fetch (tables : Tables) (n : Nat) : Option Place :=
  if n = 0 then none else
  (lineAt tables ⟨tables.length - 1, n - 1⟩).map fun _ => ⟨tables.length - 1, n - 1⟩

def insertAt (place : Place) (c : UInt8) (tables : Tables) : Tables :=
  tables.modify place.table fun lines => lines.modify place.index (· ++ [c])

variable (width height : Nat)

/-- A line that is `nil` ends the call with an error. -/
def penStep (tables : Tables) : Pen → Option (Pen × Tables)
  | .idle => none
  | .next [] => some (.idle, tables)
  | .next (c :: rest) => some (.opened c rest (tables.length - 1), tables)
  | .opened c rest table => tables[table]?.map fun lines => (.counted c rest lines.length, tables)
  | .counted c rest n => some ((fetch tables n).elim .idle (.held c rest), tables)
  | .held c rest place => some (.inserted c rest place, insertAt place c tables)
  | .inserted c rest place => (lineAt tables place).map fun line =>
      (if c = newline ∨ line.length ≥ wrapX width then .full rest else .testing rest, tables)
  | .full rest => some (.adding rest (tables.length - 1), tables)
  | .adding rest table => some (.testing rest, tables.modify table (· ++ [[]]))
  | .testing rest => some (.measured rest (tables.length - 1), tables)
  | .measured rest table => tables[table]?.map fun lines =>
      (if lines.length ≥ clearY height then .clearing rest else .next rest, tables)
  | .clearing rest => some (.next rest, clear tables)

/-- The steps of the call, with nothing between them, leave `final`. -/
inductive Completes : Tables → Pen → Tables → Prop
  | idle : Completes tables .idle tables
  | step (moved : penStep width height tables pen = some (after, next))
      (later : Completes next after final) : Completes tables pen final

variable {width height}

theorem Completes.ended (completes : Completes width height tables .idle final) :
    tables = final := by
  cases completes with
  | idle => rfl
  | step moved => cases moved

theorem Completes.moved (completes : Completes width height tables pen final)
    (moved : penStep width height tables pen = some (after, next)) :
    Completes width height next after final := by
  cases completes with
  | idle => cases moved
  | step first later =>
    obtain ⟨rfl,rfl⟩ := Prod.mk.inj (Option.some.inj (first.symm.trans moved))
    exact later

theorem completes_testing (old : Tables) (lines : List Line)
    (later : Completes width height
      (if height ≤ 15 * (lines.length + 1) then old ++ [lines,[[]]] else old ++ [lines])
      (.next rest) final) :
    Completes width height (old ++ [lines]) (.testing rest) final := by
  have there : (old ++ [lines])[(old ++ [lines]).length - 1]? = some lines := by simp
  refine .step rfl (.step (by rw [penStep,there]; rfl) ?_)
  simp only [clearY_le]
  split_ifs with full
  · rw [if_pos full] at later
    refine .step rfl ?_
    rwa [clear,List.append_assoc]
  · rwa [if_neg full] at later

theorem completes_char (old : Tables) (earlier : List Line) (last : Line)
    (inserted : insertChar width c (earlier ++ [last]) = some lines)
    (later : Completes width height
      (if height ≤ 15 * (lines.length + 1) then old ++ [lines,[[]]] else old ++ [lines])
      (.next rest) final) :
    Completes width height (old ++ [earlier ++ [last]]) (.next (c :: rest)) final := by
  have place : fetch (old ++ [earlier ++ [last]]) (earlier ++ [last]).length =
      some ⟨old.length, earlier.length⟩ := by simp [fetch,lineAt]
  have grown : insertAt ⟨old.length, earlier.length⟩ c (old ++ [earlier ++ [last]]) =
      old ++ [earlier ++ [last ++ [c]]] := by simp [insertAt,modify_last]
  have line : lineAt (old ++ [earlier ++ [last ++ [c]]]) ⟨old.length, earlier.length⟩ =
      some (last ++ [c]) := by simp [lineAt]
  have there : (old ++ [earlier ++ [last]])[(old ++ [earlier ++ [last]]).length - 1]? =
      some (earlier ++ [last]) := by simp
  have fetched : penStep width height (old ++ [earlier ++ [last]])
      (.counted c rest (earlier ++ [last]).length) =
        some (.held c rest ⟨old.length, earlier.length⟩, old ++ [earlier ++ [last]]) := by
    rw [penStep,place]
    rfl
  refine .step rfl (.step (by rw [penStep,there]; rfl) (.step fetched (.step rfl ?_)))
  rw [grown]
  refine .step (by rw [penStep,line]; rfl) ?_
  simp only [wrapX_le,List.length_append,List.length_singleton]
  rw [insertChar_concat] at inserted
  obtain rfl := Option.some.inj inserted
  by_cases full : c = newline ∨ width ≤ 9 * (last.length + 1)
  · rw [if_pos full] at later ⊢
    have added : (old ++ [earlier ++ [last ++ [c]]]).modify old.length (· ++ [[]]) =
        old ++ [earlier ++ [last ++ [c],[]]] := by simp [modify_last]
    have number : (old ++ [earlier ++ [last ++ [c]]]).length - 1 = old.length := by simp
    refine .step rfl (.step rfl ?_)
    rw [number,added]
    exact completes_testing old _ later
  · rw [if_neg full] at later ⊢
    exact completes_testing old _ later

theorem completes_write (buf : List UInt8) (written : write width height buf tables = some final) :
    Completes width height tables (.next buf) final := by
  induction buf generalizing tables with
  | nil =>
    obtain rfl := Option.some.inj written
    exact .step rfl .idle
  | cons c rest ih =>
    rw [write_cons] at written
    obtain ⟨middle,first,others⟩ := Option.bind_eq_some_iff.mp written
    obtain ⟨lines,last,next,insert_⟩ : ∃ lines, tables.getLast? = some lines ∧
        ∃ next, insertChar width c lines = some next := by
      obtain ⟨lines,last,result⟩ := Option.bind_eq_some_iff.mp first
      obtain ⟨next,insert_,-⟩ := Option.bind_eq_some_iff.mp result
      exact ⟨lines,last,next,insert_⟩
    obtain ⟨old,rfl⟩ := List.getLast?_eq_some_iff.mp last
    obtain ⟨line,ends,-⟩ := Option.map_eq_some_iff.mp insert_
    obtain ⟨earlier,rfl⟩ := List.getLast?_eq_some_iff.mp ends
    rw [writeChar_concat insert_] at first
    obtain rfl := Option.some.inj first
    exact completes_char old earlier line insert_ (ih others)

end LuaKernel.TerminalTables
