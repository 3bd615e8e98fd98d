import Mathlib.Logic.Function.Basic
import LuaKernel.Mailbox
import LuaKernel.Runs

/-! The keyboard queue between `handle_interrupt` and `lua_get_keyboard_interrupt`, with the
interrupt flag and the ways out of the Lua API calls made while it is clear. A finalizer that
`lua_createtable` runs is Lua code, and may call the function again. -/
namespace LuaKernel.Keyboard

open Runs Mailbox

def capacity : Nat := 8

/-- Where control is, as far as this function and `hlt` are concerned. -/
inductive Place
  /-- in Lua code -/
  | lua
  /-- at the instruction `hlt` -/
  | hlt
  /-- called, before `cli` -/
  | entry
  /-- in `lua_createtable` -/
  | create
  /-- at the test of the copying loop -/
  | loop (i : Nat)
  /-- past the loop, before the length is cleared -/
  | clearing
  /-- before `sti` -/
  | enable
  /-- before the return -/
  | done
  deriving DecidableEq

/-- `queue` is the memory from the array's first word on: an index from 8 lies outside it.
`narray` is the size the current call has asked of `lua_createtable`, `outer` holds those of the
calls whose `lua_createtable` is running a finalizer, the innermost first. -/
structure State where
  interruptFlag : Bool
  queue : Nat → UInt32
  len : Nat
  narray : Nat
  table : List UInt32
  place : Place
  outer : List Nat

inductive Label
  /-- the keyboard interrupt, with the value read from the port -/
  | interrupt (scancode : UInt32)
  /-- any other interrupt -/
  | other
  /-- Lua calls `hlt` -/
  | hlt
  /-- Lua calls `get_keyboard_interrupt` -/
  | call
  | cli
  /-- `lua_createtable` returns -/
  | create
  /-- its collector step runs a finalizer written in Lua -/
  | finalize
  /-- the finalizer returns -/
  | finalized
  /-- an error unwinds to a handler in Lua, out of `levels` finalizers -/
  | fail (levels : Nat)
  /-- one round of the loop -/
  | push
  /-- the loop ends -/
  | exit
  /-- the length is cleared -/
  | clear
  | sti
  /-- the function returns its table -/
  | ret (table : List UInt32)

def wake : Place → Place
  | .hlt => .lua
  | place => place

def handleKeyboard (scancode : UInt32) (s : State) : State :=
  if s.len < capacity then
    { s with queue := Function.update s.queue s.len scancode, len := s.len + 1 }
  else s

/-- `lua_rawseti` on a table that has the elements before the index. -/
def rawseti (table : List UInt32) (n : Nat) (value : UInt32) : List UInt32 :=
  if n = table.length + 1 then table ++ [value] else table.set (n - 1) value

def goto (s : State) (place : Place) : State := { s with place := place }

/-- Where an error can come from that unwinds out of `levels` finalizers: a memory error of
`lua_createtable`, one of `lua_rawseti` past the size the table was made with, or any error of a
finalizer that the finalizer does not handle. -/
def Raises (s : State) (levels : Nat) : Prop :=
  levels ≤ s.outer.length ∧
    match s.place with
    | .create => True
    | .loop i => i < s.len ∧ s.narray ≤ i
    | .lua => 0 < levels
    | _ => False

instance (s : State) (levels : Nat) : Decidable (Raises s levels) := by
  unfold Raises
  cases s.place <;> exact inferInstance

/-- Interrupts are taken only while the flag is set. -/
def step (s : State) : Label → Option State
  | .interrupt scancode =>
    if s.interruptFlag then some (handleKeyboard scancode (goto s (wake s.place))) else none
  | .other => if s.interruptFlag then some (goto s (wake s.place)) else none
  | .hlt => if s.place = .lua then some (goto s .hlt) else none
  | .call => if s.place = .lua then some (goto s .entry) else none
  | .cli => if s.place = .entry then
      some { goto s .create with interruptFlag := false, narray := s.len } else none
  | .create => if s.place = .create then some { goto s (.loop 0) with table := [] } else none
  | .finalize => if s.place = .create then
      some { goto s .lua with outer := s.narray :: s.outer } else none
  | .finalized =>
    match s.place, s.outer with
    | .lua, narray :: outer => some { goto s .create with narray := narray, outer := outer }
    | _, _ => none
  | .fail levels => if Raises s levels then
      some { goto s .lua with outer := s.outer.drop levels } else none
  | .push =>
    match s.place with
    | .loop i => if i < s.len then
        some { goto s (.loop (i + 1)) with table := rawseti s.table (i + 1) (s.queue i) } else none
    | _ => none
  | .exit =>
    match s.place with
    | .loop i => if i < s.len then none else some (goto s .clearing)
    | _ => none
  | .clear => if s.place = .clearing then some { goto s .enable with len := 0 } else none
  | .sti => if s.place = .enable then some { goto s .done with interruptFlag := true } else none
  | .ret table => if s.place = .done ∧ table = s.table then some (goto s .lua) else none

/-- The kernel enables interrupts before it calls `main`; the array starts out as `memory`
has it. -/
def boot (memory : Nat → UInt32) : State := ⟨true, memory, 0, 0, [], .lua, []⟩

inductive Moves (s : State) : Label → State → Prop
  | interrupt (on : s.interruptFlag = true) (scancode : UInt32) :
      Moves s (.interrupt scancode) (handleKeyboard scancode (goto s (wake s.place)))
  | other (on : s.interruptFlag = true) : Moves s .other (goto s (wake s.place))
  | hlt (from_ : s.place = .lua) : Moves s .hlt (goto s .hlt)
  | call (from_ : s.place = .lua) : Moves s .call (goto s .entry)
  | cli (from_ : s.place = .entry) :
      Moves s .cli { goto s .create with interruptFlag := false, narray := s.len }
  | create (from_ : s.place = .create) : Moves s .create { goto s (.loop 0) with table := [] }
  | finalize (from_ : s.place = .create) :
      Moves s .finalize { goto s .lua with outer := s.narray :: s.outer }
  | finalized (from_ : s.place = .lua) (inside : s.outer = narray :: outer) :
      Moves s .finalized { goto s .create with narray := narray, outer := outer }
  | fail (raises : Raises s levels) :
      Moves s (.fail levels) { goto s .lua with outer := s.outer.drop levels }
  | push (from_ : s.place = .loop i) (more : i < s.len) : Moves s .push
      { goto s (.loop (i + 1)) with table := rawseti s.table (i + 1) (s.queue i) }
  | exit (from_ : s.place = .loop i) (last : s.len ≤ i) : Moves s .exit (goto s .clearing)
  | clear (from_ : s.place = .clearing) : Moves s .clear { goto s .enable with len := 0 }
  | sti (from_ : s.place = .enable) : Moves s .sti { goto s .done with interruptFlag := true }
  | ret (from_ : s.place = .done) : Moves s (.ret s.table) (goto s .lua)

theorem guarded [Decidable p] {a b : State} (moved : (if p then some a else none) = some b) :
    p ∧ a = b := by
  split at moved
  · exact ⟨by assumption,Option.some.inj moved⟩
  · contradiction

theorem step_moves (s t : State) (moved : step s label = some t) : Moves s label t := by
  cases label with
  | interrupt scancode => obtain ⟨on,rfl⟩ := guarded moved; exact .interrupt on scancode
  | other => obtain ⟨on,rfl⟩ := guarded moved; exact .other on
  | hlt => obtain ⟨from_,rfl⟩ := guarded moved; exact .hlt from_
  | call => obtain ⟨from_,rfl⟩ := guarded moved; exact .call from_
  | cli => obtain ⟨from_,rfl⟩ := guarded moved; exact .cli from_
  | create => obtain ⟨from_,rfl⟩ := guarded moved; exact .create from_
  | finalize => obtain ⟨from_,rfl⟩ := guarded moved; exact .finalize from_
  | finalized =>
    simp only [step] at moved
    split at moved
    · rename_i narray outer from_ inside
      obtain rfl := Option.some.inj moved
      exact .finalized from_ inside
    · contradiction
  | fail levels => obtain ⟨raises,rfl⟩ := guarded moved; exact .fail raises
  | push =>
    simp only [step] at moved
    split at moved
    · rename_i i from_
      obtain ⟨more,rfl⟩ := guarded moved
      exact .push from_ more
    · contradiction
  | exit =>
    simp only [step] at moved
    split at moved
    · rename_i i from_
      split at moved
      · contradiction
      · obtain rfl := Option.some.inj moved
        exact .exit from_ (by omega)
    · contradiction
  | clear => obtain ⟨from_,rfl⟩ := guarded moved; exact .clear from_
  | sti => obtain ⟨from_,rfl⟩ := guarded moved; exact .sti from_
  | ret table => obtain ⟨⟨from_,rfl⟩,rfl⟩ := guarded moved; exact .ret from_

theorem handleKeyboard_frame (scancode : UInt32) (s : State) :
    (handleKeyboard scancode s).place = s.place ∧ (handleKeyboard scancode s).table = s.table ∧
      (handleKeyboard scancode s).interruptFlag = s.interruptFlag ∧
      (handleKeyboard scancode s).outer = s.outer := by
  unfold handleKeyboard
  split <;> exact ⟨rfl,rfl,rfl,rfl⟩

theorem handleKeyboard_bound (scancode : UInt32) (s : State) (bound : s.len ≤ capacity) :
    (handleKeyboard scancode s).len ≤ capacity := by
  unfold handleKeyboard
  split
  · rename_i room
    exact room
  · exact bound

theorem bound_step (s t : State) (bound : s.len ≤ capacity) (moved : step s label = some t) :
    t.len ≤ capacity := by
  cases step_moves s t moved with
  | interrupt on scancode => exact handleKeyboard_bound _ _ bound
  | clear => exact Nat.zero_le _
  | _ => exact bound

theorem queue_outside (s t : State) (moved : step s label = some t) (i : Nat)
    (outside : capacity ≤ i) : t.queue i = s.queue i := by
  cases step_moves s t moved with
  | interrupt on scancode =>
    unfold handleKeyboard
    split
    · rename_i room
      have : i ≠ s.len := fun same => by simp [goto] at room; omega
      simp [goto,this]
    · rfl
  | _ => rfl

/-- The part of the function between `cli` and `sti`. -/
def Place.Masked : Place → Prop
  | .create | .loop _ | .clearing | .enable => True
  | _ => False

def Apart (s : State) (label : Label) : Prop := label = .call → s.outer = []

structure Good (s : State) : Prop where
  masked : s.place.Masked ∨ s.outer ≠ [] → s.interruptFlag = false
  finalizer : s.outer ≠ [] → s.outer.length = 1 ∧ (s.place = .lua ∨ s.place = .hlt)
  copied : ∀ {i}, s.place = .loop i → i ≤ s.len ∧ s.table = (List.range i).map s.queue
  whole : s.place = .clearing → s.table = (List.range s.len).map s.queue

theorem good_boot (memory : Nat → UInt32) : Good (boot memory) :=
  ⟨by simp [boot,Place.Masked],by simp [boot],nofun,nofun⟩

theorem wake_masked (place : Place) : (wake place).Masked ↔ place.Masked := by
  cases place <;> simp [wake,Place.Masked]

theorem Good.unmasked (good : Good s) (on : s.interruptFlag = true) :
    ¬(wake s.place).Masked ∧ s.outer = [] := by
  rw [wake_masked]
  refine ⟨fun masked => ?_,by_contra fun inside => ?_⟩
  · rw [good.masked (Or.inl masked)] at on
    contradiction
  · rw [good.masked (Or.inr inside)] at on
    contradiction

theorem Good.outermost (good : Good s) (place : s.place ≠ .lua ∧ s.place ≠ .hlt) :
    s.outer = [] := by
  by_contra inside
  rcases (good.finalizer inside).2 with here | here
  · exact place.1 here
  · exact place.2 here

/-- An error leaves the function and the finalizer, if it comes from one. -/
theorem Good.unwound (good : Good s) (raises : Raises s levels) : s.outer.drop levels = [] := by
  obtain ⟨-,from_⟩ := raises
  rw [List.drop_eq_nil_iff]
  cases here : s.place <;> simp only [here] at from_
  case create | loop => simp [good.outermost (by simp [here])]
  case lua =>
    by_cases nested : s.outer = []
    · simp [nested]
    · rw [(good.finalizer nested).1]
      exact from_

theorem apart_other (s : State) (other : label ≠ .call) : Apart s label :=
  fun same => absurd same other

/-- A state outside of `cli` and `sti`, or in a finalizer between them. -/
theorem good_open (t : State) (place : ¬t.place.Masked)
    (inside : t.outer ≠ [] → t.interruptFlag = false ∧ t.outer.length = 1 ∧
      (t.place = .lua ∨ t.place = .hlt)) : Good t := by
  refine ⟨fun masked => ?_,fun nested => (inside nested).2,fun here => ?_,fun here => ?_⟩
  · exact (inside (masked.resolve_left place)).1
  · exact absurd (by rw [here]; trivial) place
  · exact absurd (by rw [here]; trivial) place

/-- A state between them, with what has been copied. -/
theorem good_masked (t : State) (off : t.interruptFlag = false) (outermost : t.outer = [])
    (copied : ∀ {i}, t.place = .loop i → i ≤ t.len ∧ t.table = (List.range i).map t.queue)
    (whole : t.place = .clearing → t.table = (List.range t.len).map t.queue) : Good t :=
  ⟨fun _ => off,fun nested => absurd outermost nested,copied,whole⟩

theorem rawseti_next (table : List UInt32) (value : UInt32) (next : table.length = i) :
    rawseti table (i + 1) value = table ++ [value] := by
  simp [rawseti,next]

theorem good_step (s t : State) (good : Good s) (apart : Apart s label)
    (moved : step s label = some t) : Good t := by
  have off (place : s.place.Masked) : s.interruptFlag = false := good.masked (Or.inl place)
  cases step_moves s t moved with
  | interrupt on scancode =>
    obtain ⟨place,-,-,outer⟩ := handleKeyboard_frame scancode (goto s (wake s.place))
    obtain ⟨unmasked,outermost⟩ := good.unmasked on
    exact good_open _ (place ▸ unmasked) fun nested => absurd (outer.trans outermost) nested
  | other on =>
    obtain ⟨unmasked,outermost⟩ := good.unmasked on
    exact good_open _ unmasked fun nested => absurd outermost nested
  | hlt from_ =>
    exact good_open _ id fun nested =>
      ⟨good.masked (Or.inr nested),(good.finalizer nested).1,Or.inr rfl⟩
  | call from_ => exact good_open _ id fun nested => absurd (apart rfl) nested
  | cli from_ => exact good_masked _ rfl (good.outermost (by simp [from_])) nofun nofun
  | create from_ =>
    refine good_masked _ (off (by rw [from_]; trivial)) (good.outermost (by simp [from_]))
      (fun here => ?_) nofun
    cases here
    exact ⟨Nat.zero_le _,rfl⟩
  | finalize from_ =>
    have outermost := good.outermost (by simp [from_])
    exact good_open _ id fun _ =>
      ⟨off (by rw [from_]; trivial),by simp [outermost],Or.inl rfl⟩
  | @finalized narray outer from_ inside =>
    have nested : s.outer ≠ [] := by simp [inside]
    have depth := (good.finalizer nested).1
    refine good_masked _ (good.masked (Or.inr nested)) ?_ nofun nofun
    simpa [inside] using depth
  | fail raises => exact good_open _ id fun nested => absurd (good.unwound raises) nested
  | @push i from_ more =>
    obtain ⟨-,copied⟩ := good.copied from_
    refine good_masked _ (off (by rw [from_]; trivial)) (good.outermost (by simp [from_]))
      (fun here => ?_) nofun
    cases here
    have length : s.table.length = i := by simp [copied]
    have extended := rawseti_next s.table (s.queue i) length
    exact ⟨more,by rw [extended,copied]; simp [goto,List.range_succ]⟩
  | exit from_ last =>
    obtain ⟨inside,copied⟩ := good.copied from_
    refine good_masked _ (off (by rw [from_]; trivial)) (good.outermost (by simp [from_])) nofun
      fun _ => ?_
    rw [Nat.le_antisymm inside last] at copied
    exact copied
  | clear from_ =>
    exact good_masked _ (off (by rw [from_]; trivial)) (good.outermost (by simp [from_])) nofun
      nofun
  | sti from_ | ret from_ =>
    have outermost := good.outermost (by simp [from_])
    exact good_open _ id fun nested => absurd outermost nested

/-- The queue as a mailbox: an interrupt is an arrival, clearing the length is the drain. -/
def event : Label → List (Event UInt32)
  | .interrupt scancode => [.arrive scancode]
  | .clear => [.drain]
  | _ => []

def returned : Label → List UInt32
  | .ret table => table
  | _ => []

def pending (s : State) : List UInt32 := (List.range s.len).map s.queue

def inFlight (s : State) : List UInt32 :=
  match s.place with
  | .enable | .done => s.table
  | _ => []

/-- The mailbox a state stands for, when `history` has been returned to Lua. -/
def box (history : List UInt32) (s : State) : Box UInt32 := ⟨history ++ inFlight s, pending s⟩

theorem inFlight_wake (s : State) : inFlight (goto s (wake s.place)) = inFlight s := by
  cases here : s.place <;> simp [inFlight,goto,wake,here]

theorem inFlight_handle (scancode : UInt32) (s : State) :
    inFlight (handleKeyboard scancode s) = inFlight s := by
  obtain ⟨place,table,-⟩ := handleKeyboard_frame scancode s
  simp [inFlight,place,table]

theorem inFlight_raises (raises : Raises s levels) : inFlight s = [] := by
  obtain ⟨-,from_⟩ := raises
  cases here : s.place <;> simp_all [inFlight]

theorem pending_handle (scancode : UInt32) (s : State) :
    pending (handleKeyboard scancode s) =
      if (pending s).length < capacity then pending s ++ [scancode] else pending s := by
  have older : (List.range s.len).map (Function.update s.queue s.len scancode) = pending s := by
    apply List.map_congr_left
    intro i member
    have : i ≠ s.len := Nat.ne_of_lt (List.mem_range.mp member)
    simp [this]
  have length : (pending s).length = s.len := by simp [pending]
  rw [length]
  unfold handleKeyboard
  split
  · simpa [pending,List.range_succ] using older
  · rfl

/-- Each step of the kernel is what the mailbox does with its event. -/
theorem box_step (s t : State) (good : Good s) (moved : step s label = some t)
    (history : List UInt32) :
    box (history ++ returned label) t = deliverAll capacity (box history s) (event label) := by
  have quiet (none : event label = [] ∧ returned label = [])
      (queue : t.queue = s.queue ∧ t.len = s.len) (flight : inFlight t = inFlight s) :
      box (history ++ returned label) t = deliverAll capacity (box history s) (event label) := by
    simp [box,flight,pending,queue,none,deliverAll]
  cases step_moves s t moved with
  | interrupt on scancode =>
    have queued := pending_handle scancode (goto s (wake s.place))
    have same : pending (goto s (wake s.place)) = pending s := rfl
    have flight : inFlight (handleKeyboard scancode (goto s (wake s.place))) = inFlight s := by
      rw [inFlight_handle,inFlight_wake]
    rw [same] at queued
    simp only [box,returned,event,deliverAll,List.foldl_cons,List.foldl_nil,deliver,
      List.append_nil,flight,queued]
    split <;> rfl
  | other on => exact quiet ⟨rfl,rfl⟩ ⟨rfl,rfl⟩ (inFlight_wake s)
  | hlt from_ | call from_ | cli from_ | create from_ | finalize from_ | sti from_ =>
    exact quiet ⟨rfl,rfl⟩ ⟨rfl,rfl⟩ (by simp [inFlight,goto,from_])
  | finalized from_ _ | push from_ _ | exit from_ _ =>
    exact quiet ⟨rfl,rfl⟩ ⟨rfl,rfl⟩ (by simp [inFlight,goto,from_])
  | fail raises => exact quiet ⟨rfl,rfl⟩ ⟨rfl,rfl⟩ (inFlight_raises raises).symm
  | clear from_ =>
    have whole := good.whole from_
    simp [box,returned,event,deliverAll,deliver,inFlight,goto,pending,from_,whole]
  | ret from_ => simp [box,returned,event,deliverAll,inFlight,goto,pending,from_]

/-- Whatever the order of interrupts and calls: at most 8 scancodes are pending and no word
outside of the array is written. If no finalizer calls the function, the tables returned to Lua,
then the one on its way, then the queue, are the scancodes that found room, in order of arrival. -/
theorem keyboard_queue (memory : Nat → UInt32) (labels : List Label) (t : State)
    (ran : run step (boot memory) labels = some t) :
    (pending t).length ≤ capacity ∧ (∀ i, capacity ≤ i → t.queue i = memory i) ∧
    (Along step Apart (boot memory) labels →
      labels.flatMap returned ++ inFlight t ++ pending t =
        kept capacity 0 (labels.flatMap event) ∧
      (Sparse capacity 0 (labels.flatMap event) →
        kept capacity 0 (labels.flatMap event) = arrivals (labels.flatMap event))) := by
  refine ⟨?_,?_,fun apart => ⟨?_,kept_sparse 0 _⟩⟩
  · rw [pending,List.length_map,List.length_range]
    exact run_invariant (fun s _ next bound moved => bound_step s next bound moved) ran
      (Nat.zero_le _)
  · exact run_invariant (P := fun t => ∀ i, capacity ≤ i → t.queue i = memory i)
      (fun s _ next kept moved i outside =>
        (queue_outside s next moved i outside).trans (kept i outside)) ran fun _ _ => rfl
  · have always : Good t ∧ box (labels.flatMap returned) t =
        deliverAll capacity ⟨[], []⟩ (labels.flatMap event) := by
      refine along_history (H := fun labels t => Good t ∧ box (labels.flatMap returned) t =
          deliverAll capacity ⟨[], []⟩ (labels.flatMap event)) ⟨good_boot memory,rfl⟩ ?_ apart ran
      rintro history s label next ⟨good,same⟩ apart moved
      refine ⟨good_step s next good apart moved,?_⟩
      simp only [List.flatMap_append,List.flatMap_singleton]
      rw [box_step s next good moved,same,deliverAll_append]
    have law := balance capacity ⟨[], []⟩ (labels.flatMap event)
    rw [← always.2] at law
    simpa [box] using law

/-- Two scancodes before a call and one between its `sti` and its return. -/
def threeKeys : List Label :=
  [.interrupt 1, .interrupt 2, .call, .cli, .create, .push, .push, .exit, .clear, .sti,
    .interrupt 3, .ret [1, 2]]

theorem threeKeys_kept : ∃ t, run step (boot fun _ => 0) threeKeys = some t ∧
    [1, 2] ++ pending t = [1, 2, 3] := by
  obtain ⟨t,ran,place⟩ : ∃ t, run step (boot fun _ => 0) threeKeys = some t ∧
      t.place = .lua := ⟨_,rfl,rfl⟩
  have apart : Along step Apart (boot fun _ => 0) threeKeys := by
    simp [threeKeys,Along,Apart,step,boot,goto,handleKeyboard,capacity,wake]
  obtain ⟨law,-⟩ := (keyboard_queue (fun _ => 0) threeKeys t ran).2.2 apart
  refine ⟨t,ran,?_⟩
  have flight : inFlight t = [] := by simp [inFlight,place]
  simpa [threeKeys,returned,event,kept,capacity,flight] using law

/-- A finalizer run by the first call calls the function too. The second call enables interrupts,
and a scancode arrives between the end of the first call's loop and the store of its length. -/
def nestedCall : List Label :=
  [.call, .cli, .finalize, .call, .cli, .create, .exit, .clear, .sti, .ret [], .finalized,
    .create, .exit, .interrupt 30, .clear, .sti, .ret []]

/-- The scancode was the only one pending, and it is lost. -/
theorem nestedCall_loses : ∃ t, run step (boot fun _ => 0) nestedCall = some t ∧
    nestedCall.flatMap returned ++ inFlight t ++ pending t = [] ∧
    kept capacity 0 (nestedCall.flatMap event) = [30] ∧
    Sparse capacity 0 (nestedCall.flatMap event) :=
  ⟨_,rfl,rfl,rfl,by simp [nestedCall,event,Sparse,capacity]⟩

end LuaKernel.Keyboard
