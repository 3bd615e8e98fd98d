import Mathlib.Algebra.Group.Int.Defs
import Mathlib.Algebra.Group.Nat.Defs
import Mathlib.Data.Nat.Size
import LuaKernel.HashMaps
import LuaKernel.Numbers

/-! The tables of Lua 5.2: an array part for the keys from 1 on and a hash part for the others. A
new key that finds no free cell makes the table count its keys, choose new sizes and insert
everything again. Keys are those a table can have, so neither `nil` nor NaN; a value is `none`
where it is `nil`. -/
namespace LuaKernel.LuaTables

open HashChains

def MAXBITS : Nat := 30
def MAXASIZE : Nat := 2 ^ MAXBITS
def MAX_INT : Nat := 2 ^ 31 - 3

structure Hashing (K : Type) where
  /-- `arrayindex`, if it is positive -/
  index : K → Option Nat
  /-- `cast_num` of an `int` -/
  number : Nat → K
  /-- by the logarithm of the number of nodes -/
  mainposition : Nat → K → Nat
  index_zero : index (number 0) = none
  index_number : 0 < i → i < 2 ^ 31 → index (number i) = some i
  number_index : index k = some i → 0 < i ∧ number i = k
  bound : mainposition lsize k < 2 ^ lsize

/-- `dummy` says that the nodes are the common `dummynode`. -/
structure Table (K V : Type) where
  array : List (Option V)
  lsizenode : Nat
  dummy : Bool
  nodes : Cells K V

inductive Slot
  | array (i : Nat)
  | node (i : Nat)

variable {K V : Type}

/-- `luaO_ceillog2`, which looks the last bits up in a table. -/
def ceillog2 (x : Nat) : Nat := (x - 1).size

section Operations

variable [DecidableEq K] (h : Hashing K)

def inArray (size : Nat) (k : K) : Bool := (h.index k).any (· ≤ size)

def nodeSlot (t : Table K V) (k : K) : Option Slot :=
  (find t.nodes.cell k (2 ^ t.lsizenode) (some (h.mainposition t.lsizenode k))).map .node

/-- `luaH_get`, with `luaH_getint` and `luaH_getstr`; `none` is `luaO_nilobject`. -/
def slot (t : Table K V) (k : K) : Option Slot :=
  match h.index k with
  | some i => if i ≤ t.array.length then some (.array (i - 1)) else nodeSlot h t k
  | none => nodeSlot h t k

def read (t : Table K V) : Slot → Option V
  | .array i => t.array.getD i none
  | .node i => (t.nodes.cell i).val

def write (t : Table K V) (v : Option V) : Slot → Table K V
  | .array i => { t with array := t.array.set i v }
  | .node i => { t with nodes := assign i v t.nodes }

def get (t : Table K V) (k : K) : Option V := (slot h t k).bind (read t)

/-- `luaH_newkey` up to the rehash, for which there is no result. -/
def newkey (t : Table K V) (k : K) : Option (Slot × Table K V) :=
  if t.dummy then none else
    (insert (h.mainposition t.lsizenode) (2 ^ t.lsizenode) k t.nodes).map fun (p, nodes) =>
      (.node p, { t with nodes := nodes })

/-- A store by `luaH_set` or `luaH_setint` that needs no rehash. -/
def place (t : Table K V) (k : K) (v : Option V) : Option (Table K V) :=
  match slot h t k with
  | some s => some (write t v s)
  | none => (newkey h t k).map fun (s, t) => write t v s

/-- `setnodevector`; `none` is the error of a table that is too large. The dummy is one node
that is never given away. -/
def setnodevector (size : Nat) (t : Table K V) : Option (Table K V) :=
  if size = 0 then some { t with lsizenode := 0, dummy := true, nodes := blank 1 } else
  let lsize := ceillog2 size
  if lsize > MAXBITS then none
  else some { t with lsizenode := lsize, dummy := false, nodes := blank (2 ^ lsize) }

/-- The values of an array part behind the first `i` slots, with their keys. -/
def slice (i : Nat) : List (Option V) → List (K × V)
  | [] => []
  | some v :: rest => (h.number (i + 1), v) :: slice (i + 1) rest
  | none :: rest => slice (i + 1) rest

def nodeEntry : Cell K V → Option (K × V)
  | ⟨some k, some v, _⟩ => some (k, v)
  | _ => none

def nodeEntries (t : Table K V) : List (K × V) :=
  (List.range (2 ^ t.lsizenode)).reverse.filterMap fun i => nodeEntry (t.nodes.cell i)

def setarrayvector (size : Nat) (array : List (Option V)) : List (Option V) :=
  array ++ List.replicate (size - array.length) none

def fill (t : Table K V) : List (K × V) → Option (Table K V)
  | [] => some t
  | (k, v) :: rest => (place h t k (some v)).bind fun t => fill t rest

/-- `luaH_resize`; there is no result if an insertion called for a rehash again. -/
def resize (t : Table K V) (nasize nhsize : Nat) : Option (Table K V) := do
  let array := if nasize > t.array.length then setarrayvector nasize t.array
    else t.array.take nasize
  let fresh ← setnodevector nhsize { t with array := array }
  let vanishing := slice h nasize (t.array.drop nasize)
  fill h fresh (vanishing ++ nodeEntries t)

def countint (k : K) (nums : Nat → Nat) : Nat × (Nat → Nat) :=
  if inArray h MAXASIZE k then
    let lg := ceillog2 ((h.index k).getD 0)
    (1, Function.update nums lg (nums lg + 1))
  else (0, nums)

def lgSlice (array : List (Option V)) (lg : Nat) : List (Option V) :=
  (array.take (2 ^ lg)).drop (if lg = 0 then 0 else 2 ^ (lg - 1))

def numusearray (array : List (Option V)) (nums : Nat → Nat) : Nat × (Nat → Nat) :=
  (List.range (MAXBITS + 1)).foldl (fun (ause, nums) lg =>
    let lc := (lgSlice array lg).countP Option.isSome
    (ause + lc, Function.update nums lg (nums lg + lc))) (0, nums)

/-- `numusehash`, on the values of the nodes and the counts so far: all values, those with
integer keys, and these by the logarithm. -/
def numusehash : List (K × V) → Nat × Nat × (Nat → Nat) → Nat × Nat × (Nat → Nat)
  | [], counts => counts
  | (k, _) :: rest, (totaluse, ause, nums) =>
    numusehash rest (totaluse + 1, ause + (countint h k nums).1, (countint h k nums).2)

/-- The loop of `computesizes` from `i` on, with the sums so far and the best size. -/
def sizesLoop (nums : Nat → Nat) (narray : Nat) : Nat → Nat → Nat → Nat → Nat → Nat × Nat
  | 0, _, _, na, n => (n, na)
  | fuel + 1, i, a, na, n =>
    if 2 ^ i / 2 < narray then
      let a := a + nums i
      let (na, n) := if nums i > 0 ∧ a > 2 ^ i / 2 then (a, 2 ^ i) else (na, n)
      if a = narray then (n, na) else sizesLoop nums narray fuel (i + 1) a na n
    else (n, na)

/-- `computesizes`: the size of the array part and the number of keys that go to it. -/
def computesizes (nums : Nat → Nat) (narray : Nat) : Nat × Nat :=
  sizesLoop nums narray (MAXBITS + 1) 0 0 0 0

def rehash (t : Table K V) (ek : K) : Option (Table K V) :=
  let (ause, nums) := numusearray t.array fun _ => 0
  let (totaluse, hashed, nums) := numusehash h (nodeEntries t) (0, 0, nums)
  let (extra, nums) := countint h ek nums
  let (nasize, na) := computesizes nums (ause + hashed + extra)
  resize h t nasize (ause + totaluse + 1 - na)

def store (t : Table K V) (k : K) (v : Option V) : Option (Table K V) :=
  match place h t k v with
  | some t => some t
  | none => (rehash h t k).bind fun t => place h t k v

def new : Table K V := ⟨[], 0, true, blank 1⟩

def present (t : Table K V) (i : Nat) : Bool := (get h t (h.number i)).isSome

/-- The binary search between a slot that is present, or 0, and one that is not. -/
def binary (present : Nat → Bool) : Nat → Nat → Nat → Nat
  | 0, i, _ => i
  | fuel + 1, i, j =>
    if j - i > 1 then
      let m := (i + j) / 2
      if present m then binary present fuel m j else binary present fuel i m
    else i

def linear (present : Nat → Bool) : Nat → Nat → Nat
  | 0, i => i - 1
  | fuel + 1, i => if present i then linear present fuel (i + 1) else i - 1

/-- The first loop of `unbound_search`: the last slot found and one that is not present, or
`none` when the numbers get too large. -/
def double (present : Nat → Bool) : Nat → Nat → Nat → Option (Nat × Nat)
  | 0, _, _ => none
  | fuel + 1, i, j =>
    if present j then
      if j * 2 > MAX_INT then none else double present fuel j (j * 2)
    else some (i, j)

def unboundSearch (t : Table K V) (j : Nat) : Nat :=
  match double (present h t) 32 j (j + 1) with
  | some (i, j) => binary (present h t) j i j
  | none => linear (present h t) (t.array.length + (nodeEntries t).length + 1) 1

def getn (t : Table K V) : Nat :=
  let j := t.array.length
  if j > 0 ∧ (t.array.getD (j - 1) none).isNone then
    binary (fun m => (t.array.getD (m - 1) none).isSome) j 0 j
  else if t.dummy then j
  else unboundSearch h t j

inductive Result (V : Type)
  | done
  | value (v : Option V)
  | badArgument (arg : Nat) (message : String)

/-- `t[i] = t[i-1]` for the `n` slots behind `pos`, from the last one on. -/
def moveUp (pos : Nat) : Nat → Table K V → Option (Table K V)
  | 0, t => some t
  | n + 1, t =>
    (store h t (h.number (pos + n + 1)) (get h t (h.number (pos + n)))).bind (moveUp pos n)

/-- `t[pos] = t[pos+1]` for `n` slots from `pos` on. -/
def moveDown : Nat → Nat → Table K V → Option (Table K V)
  | _, 0, t => some t
  | pos, n + 1, t =>
    (store h t (h.number pos) (get h t (h.number (pos + 1)))).bind (moveDown (pos + 1) n)

/-- `luaL_checkint`: an `int64`, and of that the lower half. -/
def checkint (n : Int) : Int := (Numbers.toInteger n).bmod (2 ^ 32)

/-- `tinsert`, with two arguments or with a position between. -/
def tinsert (t : Table K V) (pos : Option Int) (v : V) : Option (Table K V × Result V) :=
  let e := getn h t + 1
  match pos with
  | none => (store h t (h.number e) (some v)).map (·, .done)
  | some pos =>
    let pos := checkint pos
    if 1 ≤ pos ∧ pos ≤ e then
      ((moveUp h pos.toNat (e - pos.toNat) t).bind fun t =>
        store h t (h.number pos.toNat) (some v)).map (·, .done)
    else some (t, .badArgument 2 "position out of bounds")

def tremove (t : Table K V) (pos : Option Int) : Option (Table K V × Result V) :=
  let size := getn h t
  let pos := (pos.map checkint).getD size
  if pos = size ∨ 1 ≤ pos ∧ pos ≤ size + 1 then
    let result := get h t (h.number pos.toNat)
    ((moveDown h pos.toNat (size - pos.toNat) t).bind fun t =>
      store h t (h.number (max pos.toNat size)) none).map (·, .value result)
  else some (t, .badArgument 1 "position out of bounds")

end Operations

end LuaKernel.LuaTables
