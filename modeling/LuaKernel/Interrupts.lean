import Mathlib.Data.List.Induction
import LuaKernel.Keyboard

/-! The interrupt flag over whole runs. `lua_get_keyboard_interrupt` clears it and then calls
`lua_createtable`, which may raise an error or run a finalizer before `sti` is reached. -/
namespace LuaKernel.Keyboard

open Runs

/-- In Lua code, and at `hlt`, interrupts are enabled. A finalizer written in Lua is Lua code
too. -/
def Enabled (s : State) : Prop := s.place = .lua ∨ s.place = .hlt → s.interruptFlag = true

/-- `lua_createtable` raises an error, or runs a finalizer written in Lua. -/
def Label.Interferes : Label → Prop
  | .fail _ | .finalize => True
  | _ => False

/-- Until then the flag is clear between `cli` and `sti` only. -/
structure Open (s : State) : Prop where
  outermost : s.outer = []
  masked : s.place.Masked → s.interruptFlag = false
  flag : ¬s.place.Masked → s.interruptFlag = true

theorem Open.enabled (opened : Open s) : Enabled s := by
  rintro (here | here)
  · exact opened.flag (by rw [here]; exact id)
  · exact opened.flag (by rw [here]; exact id)

/-- With interrupts masked, leaving for Lua leaves them masked. -/
theorem interferes_step (s t : State) (opened : Open s) (label : Label) (bad : label.Interferes)
    (moved : step s label = some t) : ¬Enabled t := by
  cases step_moves s t moved with
  | fail raises =>
    obtain ⟨levels,from_⟩ := raises
    rw [opened.outermost,List.length_nil] at levels
    have masked : s.place.Masked := by
      cases here : s.place <;> simp only [here] at from_
      case create | loop => trivial
      case lua => omega
    intro enabled
    exact absurd ((opened.masked masked).symm.trans (enabled (Or.inl rfl))) (by simp)
  | finalize from_ =>
    intro enabled
    have off := opened.masked (by rw [from_]; trivial)
    exact absurd (off.symm.trans (enabled (Or.inl rfl))) (by simp)
  | _ => exact absurd bad id

theorem open_step (s t : State) (opened : Open s) (label : Label) (fine : ¬label.Interferes)
    (moved : step s label = some t) : Open t := by
  have outermost := opened.outermost
  cases step_moves s t moved with
  | interrupt on scancode =>
    obtain ⟨place,-,flag,outer⟩ := handleKeyboard_frame scancode (goto s (wake s.place))
    refine ⟨outer.trans outermost,fun masked => ?_,fun _ => flag.trans on⟩
    rw [place] at masked
    exact absurd (opened.masked ((wake_masked _).mp masked)) (by simp [on])
  | other on =>
    refine ⟨outermost,fun masked => ?_,fun _ => on⟩
    exact absurd (opened.masked ((wake_masked _).mp masked)) (by simp [on])
  | hlt from_ | call from_ | ret from_ =>
    exact ⟨outermost,nofun,fun _ => opened.flag (by rw [from_]; exact id)⟩
  | cli => exact ⟨outermost,fun _ => rfl,fun unmasked => absurd trivial unmasked⟩
  | create from_ | clear from_ =>
    exact ⟨outermost,fun _ => opened.masked (by rw [from_]; trivial),
      fun unmasked => absurd trivial unmasked⟩
  | push from_ _ | exit from_ _ =>
    exact ⟨outermost,fun _ => opened.masked (by rw [from_]; trivial),
      fun unmasked => absurd trivial unmasked⟩
  | finalize | fail => exact absurd trivial fine
  | finalized _ inside => simp [outermost] at inside
  | sti => exact ⟨outermost,nofun,fun _ => rfl⟩

theorem open_run (memory : Nat → UInt32) (s : State)
    (ran : run step (boot memory) labels = some s)
    (fine : ∀ label ∈ labels, ¬label.Interferes) : Open s := by
  refine run_history (P := fun _ s => Open s) (fun label => ¬label.Interferes)
    ⟨rfl,False.elim,fun _ => rfl⟩ ?_ fine ran
  intro _ s label next opened fine moved
  exact open_step s next opened label fine moved

theorem enabled_fine (memory : Nat → UInt32) (labels : List Label) (t : State)
    (ran : run step (boot memory) labels = some t)
    (always : ∀ before after s, labels = before ++ after →
      run step (boot memory) before = some s → Enabled s) :
    ∀ label ∈ labels, ¬label.Interferes := by
  induction labels using List.reverseRecOn generalizing t with
  | nil => exact nofun
  | append_singleton before label ih =>
    obtain ⟨s,first,last⟩ := (run_append _ _ _ _).mp ran
    have fine := ih s first fun earlier later u split =>
      always earlier (later ++ [label]) u (by simp [split])
    obtain ⟨next,moved,same⟩ := (run_cons _ _ _ _).mp last
    obtain rfl := Option.some.inj same
    intro one member
    rcases List.mem_append.mp member with earlier | here
    · exact fine one earlier
    · rw [List.mem_singleton.mp here]
      exact fun bad => interferes_step s next (open_run memory s first fine) label bad moved
        (always _ [] next (by simp) ran)

/-- Until the call returns, interrupts are masked and the queue is as it was when the call began,
or the call has cleared it. -/
def Held (start s : State) : Prop :=
  (s.interruptFlag = false ∧ s.queue = start.queue ∧ s.len = start.len) ∨
    s.place = .enable ∨ s.place = .done

theorem held_step (start s t : State) (held : Held start s) (notCli : label ≠ .cli)
    (notRet : ∀ table, label ≠ .ret table) (moved : step s label = some t) : Held start t := by
  rcases held with ⟨off,queue,len⟩ | past
  · cases step_moves s t moved with
    | interrupt on _ | other on => simp [off] at on
    | clear => exact Or.inr (Or.inl rfl)
    | sti => exact Or.inr (Or.inr rfl)
    | cli => exact absurd rfl notCli
    | _ => exact Or.inl ⟨off,queue,len⟩
  · cases step_moves s t moved with
    | interrupt on scancode =>
      refine Or.inr ?_
      rw [(handleKeyboard_frame scancode _).1]
      rcases past with here | here <;> simp [goto,here,wake]
    | other on => exact Or.inr (by rcases past with here | here <;> simp [goto,here,wake])
    | sti => exact Or.inr (Or.inr rfl)
    | ret => exact absurd rfl (notRet _)
    | fail raises =>
      obtain ⟨-,from_⟩ := raises
      rcases past with here | here <;> simp [here] at from_
    | _ => simp_all

/-- An error leaves in the queue what was there when the call masked the interrupts. -/
theorem fail_keeps_queue (start s t : State)
    (ran : run step start (.cli :: labels) = some s) (once : .cli ∉ labels)
    (same : ∀ table, .ret table ∉ labels) (failed : step s (.fail levels) = some t) :
    pending t = pending start := by
  obtain ⟨first,moved,later⟩ := (run_cons start s .cli labels).mp ran
  have masked : Held start first := by
    cases step_moves start first moved with
    | cli => exact Or.inl ⟨rfl,rfl,rfl⟩
  have held : Held start s := by
    refine run_history (P := fun _ s => Held start s)
      (fun label => label ≠ .cli ∧ ∀ table, label ≠ .ret table) masked ?_ ?_ later
    · intro _ s label next held other moved
      exact held_step start s next held other.1 other.2 moved
    · rintro label member
      exact ⟨by rintro rfl; exact once member,by rintro table rfl; exact same table member⟩
  cases step_moves s t failed with
  | fail raises =>
    obtain ⟨-,from_⟩ := raises
    rcases held with ⟨-,queue,len⟩ | here | here
    · simp [pending,goto,queue,len]
    · simp [here] at from_
    · simp [here] at from_

/-- In a run, interrupts are enabled at every moment in Lua code and at `hlt` exactly when no
`lua_createtable` in it fails or runs a finalizer written in Lua; and in every run an exit by
error leaves the queue as the call found it. -/
theorem interrupts_enabled_iff (memory : Nat → UInt32) (labels : List Label) (t : State)
    (ran : run step (boot memory) labels = some t) :
    ((∀ before after s, labels = before ++ after → run step (boot memory) before = some s →
        Enabled s) ↔ ∀ label ∈ labels, ¬label.Interferes) ∧
    ∀ before during levels start s u, run step (boot memory) before = some start →
      run step start (.cli :: during) = some s → .cli ∉ during →
      (∀ table, .ret table ∉ during) → step s (.fail levels) = some u →
      pending u = pending start := by
  refine ⟨⟨enabled_fine memory labels t ran,?_⟩,?_⟩
  · intro fine before after s split first
    refine (open_run memory s first fun label member => fine label ?_).enabled
    rw [split]
    exact List.mem_append_left after member
  · intro before during levels start s u _ ran once same failed
    exact fail_keeps_queue start s u ran once same failed

/-- A call that succeeds, with a scancode before it and one after its `sti`. -/
def oneCall : List Label :=
  [.interrupt 30, .call, .cli, .create, .push, .exit, .clear, .sti, .interrupt 48, .ret [30],
    .hlt]

theorem oneCall_enabled : ∃ t, run step (boot fun _ => 0) oneCall = some t ∧
    ∀ before after s, oneCall = before ++ after →
      run step (boot fun _ => 0) before = some s → Enabled s := by
  obtain ⟨t,ran⟩ : ∃ t, run step (boot fun _ => 0) oneCall = some t := ⟨_,rfl⟩
  refine ⟨t,ran,(interrupts_enabled_iff (fun _ => 0) oneCall t ran).1.mpr ?_⟩
  simp [oneCall,Label.Interferes]

/-- The table cannot be allocated: the error unwinds to Lua, and the scheduler halts with
interrupts masked. Nothing can ever happen again. -/
theorem halts_masked : ∃ t,
    run step (boot fun _ => 0) [.interrupt 30, .call, .cli, .fail 0, .hlt] = some t ∧
      ¬Enabled t ∧ ∀ label, step t label = none := by
  refine ⟨_,rfl,fun enabled => absurd (enabled (Or.inr rfl)) (by decide),?_⟩
  intro label
  cases label with
  | fail levels => exact if_neg fun raises => raises.2
  | _ => rfl

end LuaKernel.Keyboard
