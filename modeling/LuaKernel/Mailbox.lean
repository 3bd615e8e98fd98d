/-! A bounded mailbox: arrivals beyond its capacity are dropped, a drain takes everything. -/
namespace LuaKernel.Mailbox

inductive Event (α : Type)
  | arrive (item : α)
  | drain

structure Box (α : Type) where
  drained : List α
  pending : List α

variable {α : Type} (capacity : Nat)

def deliver (box : Box α) : Event α → Box α
  | .arrive item =>
    if box.pending.length < capacity then { box with pending := box.pending ++ [item] } else box
  | .drain => ⟨box.drained ++ box.pending, []⟩

def deliverAll (box : Box α) (events : List (Event α)) : Box α :=
  events.foldl (deliver capacity) box

/-- The arrivals that were not dropped, when `pending` items lie in the box at the start. -/
def kept (pending : Nat) : List (Event α) → List α
  | [] => []
  | .arrive item :: rest =>
    if pending < capacity then item :: kept (pending + 1) rest else kept pending rest
  | .drain :: rest => kept 0 rest

def arrivals (events : List (Event α)) : List α :=
  events.filterMap fun
    | .arrive item => some item
    | .drain => none

/-- At most `capacity` arrivals between drains, when `pending` came since the last one. -/
def Sparse (pending : Nat) : List (Event α) → Prop
  | [] => True
  | .arrive _ :: rest => pending < capacity ∧ Sparse (pending + 1) rest
  | .drain :: rest => Sparse 0 rest

variable {capacity}

theorem deliverAll_append (box : Box α) (first second : List (Event α)) :
    deliverAll capacity box (first ++ second) =
      deliverAll capacity (deliverAll capacity box first) second :=
  List.foldl_append

variable (capacity) in
/-- What was drained and what is pending are the arrivals not dropped, in their order. -/
theorem balance (box : Box α) (events : List (Event α)) :
    (deliverAll capacity box events).drained ++ (deliverAll capacity box events).pending =
      box.drained ++ box.pending ++ kept capacity box.pending.length events := by
  induction events generalizing box with
  | nil => simp [deliverAll,kept]
  | cons event rest ih =>
    have later := ih (deliver capacity box event)
    simp only [deliverAll,List.foldl_cons] at later ⊢
    rw [later]
    cases event with
    | drain => simp [deliver,kept]
    | arrive item =>
      by_cases room : box.pending.length < capacity
      · simp [deliver,kept,room]
      · simp [deliver,kept,room]

/-- Nothing is dropped when the drains come often enough. -/
theorem kept_sparse (pending : Nat) (events : List (Event α))
    (sparse : Sparse capacity pending events) : kept capacity pending events = arrivals events := by
  induction events generalizing pending with
  | nil => rfl
  | cons event rest ih =>
    cases event with
    | drain => simpa [kept,arrivals] using ih 0 sparse
    | arrive item =>
      obtain ⟨room,later⟩ := sparse
      simpa [kept,arrivals,room] using ih (pending + 1) later

end LuaKernel.Mailbox
