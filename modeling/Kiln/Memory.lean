import Kiln.Step
import Kiln.Table
import Kiln.Value

/-!
# Kiln.Memory — cells, containers and scopes

Variables, array slots and dictionary entries are cells.  Arrays and dictionaries hold the identities
of their cells, so every holder of a container sees a write to one of them.  Identities are handed
out in order and never reused; a cell, array, dictionary or scope that does not exist reads as empty.

A scope knows the scopes around it.  Reading a variable searches them from the inside out, writing
one always binds it in the scope itself.
-/

namespace Kiln

/-- The identity of a scope. -/
structure ScopeId where
  index : Nat
  deriving DecidableEq, Repr, Inhabited

/-- The variables bound at one level. -/
structure Scope where
  vars : Table CellId
  /-- The scopes around this one, nearest first. -/
  around : List ScopeId

/-- The state of all variables and containers. -/
structure Memory where
  cells : Array Value
  arrays : Array (Array CellId)
  dicts : Array (Table CellId)
  scopes : Array Scope

namespace Memory

/-- Memory in which nothing exists. -/
def empty : Memory := ⟨#[], #[], #[], #[]⟩

instance : Inhabited Memory := ⟨empty⟩

/-! ## Looking -/

/-- The value in a cell. -/
def read (m : Memory) (c : CellId) : Value := m.cells.getD c.index .void

/-- The cells of an array. -/
def slots (m : Memory) (a : ArrayId) : Array CellId := m.arrays.getD a.index #[]

/-- The cells of a dictionary. -/
def entries (m : Memory) (d : DictId) : Table CellId := m.dicts.getD d.index .empty

/-- The variables of a scope, and the scopes around it. -/
def scope (m : Memory) (s : ScopeId) : Scope := m.scopes.getD s.index ⟨.empty, []⟩

/-- The number of elements of a container; 0 for scalars. -/
def size (m : Memory) : Value → Nat
  | .array a => (m.slots a).size
  | .dict d => (m.entries d).size
  | _ => 0

/-- The values in an array; anything else counts as the one element. -/
def elements (m : Memory) : Value → List Value
  | .array a => (m.slots a).toList.map m.read
  | v => [v]

/-- The keys of a dictionary in order; nothing else has keys. -/
def keys (m : Memory) : Value → List String
  | .dict d => (m.entries d).keys
  | _ => []

/-- The value at a position of an array; void outside of it. -/
def element (m : Memory) (a : ArrayId) (i : Int32) : Value :=
  if i < 0 then .void
  else
    match (m.slots a)[i.toInt.toNat]? with
    | some c => m.read c
    | none => .void

/-- The value under a key of a dictionary; void without it. -/
def entry (m : Memory) (d : DictId) (key : String) : Value :=
  match (m.entries d).get? key with
  | some c => m.read c
  | none => .void

/-- The tree of a value, if it is no deeper than the bound. -/
def treeWithin (m : Memory) : Nat → Value → Option Tree
  | _, .void => some .void
  | _, .int n => some (.int n)
  | _, .str s => some (.str s)
  | 0, _ => none
  | n + 1, .array a => do
    let elements ← (m.slots a).toList.mapM fun c => treeWithin m n (m.read c)
    return .array elements
  | n + 1, .dict d => do
    let entries ← (m.entries d).entries.mapM fun (k, c) => do
      let t ← treeWithin m n (m.read c)
      return (k, t)
    return .dict entries

/-- The tree of a value; a container that holds itself has none. -/
def tree? (m : Memory) (v : Value) : Option Tree :=
  m.treeWithin (m.arrays.size + m.dicts.size) v

/-- The cell a name is bound to in a scope or the nearest one around it. -/
def findVar (m : Memory) (s : ScopeId) (name : String) : Option CellId :=
  (s :: (m.scope s).around).findSome? fun s => (m.scope s).vars.get? name

/-- The value of a variable; void if it is not bound. -/
def getVar (m : Memory) (s : ScopeId) (name : String) : Value :=
  match m.findVar s name with
  | some c => m.read c
  | none => .void

/-- Whether a name is bound in the scope itself. -/
def isLocal (m : Memory) (s : ScopeId) (name : String) : Bool :=
  (m.scope s).vars.contains name

/-! ## Changing -/

/-- Puts a value into a cell. -/
def write (c : CellId) (v : Value) : Step Memory Unit :=
  .change fun m => { m with cells := m.cells.setIfInBounds c.index v }

/-- A new cell with a value in it. -/
def newCell (v : Value) : Step Memory CellId := fun m =>
  (.ok ⟨m.cells.size⟩, { m with cells := m.cells.push v })

/-- A new array with the given cells. -/
def newArrayOf (cells : List CellId) : Step Memory Value := fun m =>
  (.ok (.array ⟨m.arrays.size⟩), { m with arrays := m.arrays.push cells.toArray })

/-- A new array with the given values, each in a cell of its own. -/
def newArray (values : List Value) : Step Memory Value := do
  let cells ← Step.each newCell values
  newArrayOf cells

/-- A table with a new cell for every pair whose key has none yet. -/
def newEntries : Table CellId → List (String × Value) → Step Memory (Table CellId)
  | t, [] => return t
  | t, (k, v) :: rest =>
    if t.contains k then newEntries t rest
    else do
      let c ← newCell v
      newEntries (t.insert k c) rest

/-- A new dictionary; of several values with one key the first counts. -/
def newDict (pairs : List (String × Value)) : Step Memory Value := do
  let entries ← newEntries .empty pairs
  fun m => (.ok (.dict ⟨m.dicts.size⟩), { m with dicts := m.dicts.push entries })

/-- Makes an array at least `size` long, with new void cells at its end. -/
def growArray (a : ArrayId) (size : Nat) : Step Memory Unit := do
  let missing ← Step.look fun m => size - (m.slots a).size
  if missing = 0 then return ()
  else do
    let cells ← Step.each newCell (List.replicate missing .void)
    .change fun m =>
      { m with arrays := m.arrays.setIfInBounds a.index (m.slots a ++ cells.toArray) }

/-- The cell at a position of an array, which grows up to it. -/
def slotCell (a : ArrayId) (i : Int32) : Step Memory CellId :=
  if i < 0 then .fault .negativeIndex
  else do
    growArray a (i.toInt.toNat + 1)
    .look fun m => (m.slots a).getD i.toInt.toNat ⟨0⟩

/-- The cell under a key of a dictionary, which is made if it is not there. -/
def entryCell (d : DictId) (key : String) : Step Memory CellId := do
  match ← Step.look fun m => (m.entries d).get? key with
  | some c => return c
  | none => do
    let c ← newCell .void
    .change fun m =>
      { m with dicts := m.dicts.setIfInBounds d.index ((m.entries d).insert key c) }
    return c

/-! ## Operations on values -/

/-- The tree of a value. -/
def treeOf (v : Value) : Step Memory Tree := fun m =>
  match m.tree? v with
  | some t => (.ok t, m)
  | none => (.exhausted, m)

/-- The string form of a value. -/
def textOf (v : Value) : Step Memory String :=
  match v with
  | .str s => return s
  | v => do
    let t ← treeOf v
    return t.text

/-- The value at a position of an array. -/
def index (v : Value) (i : Int32) : Step Memory Value :=
  match v with
  | .array a => .look fun m => m.element a i
  | _ => .fault .cannotSubscript

/-- The value under a key of a dictionary. -/
def key (v : Value) (k : String) : Step Memory Value :=
  match v with
  | .dict d => .look fun m => m.entry d k
  | _ => .fault .cannotSubscript

/-- The cell at a position of an array, which grows up to it. -/
def indexCell (v : Value) (i : Int32) : Step Memory CellId :=
  match v with
  | .array a => slotCell a i
  | _ => .fault .cannotSubscript

/-- The cell under a key of a dictionary, which is made if it is not there. -/
def keyCell (v : Value) (k : String) : Step Memory CellId :=
  match v with
  | .dict d => entryCell d k
  | _ => .fault .cannotSubscript

/-- The sum of two values: void adds nothing, arrays are put together into a new one, a string
makes the sum a string, and anything else is added as 32-bit integers. -/
def add : Value → Value → Step Memory Value
  | .void, r => return r
  | l, .void => return l
  | .array a, r => do
    let values ← Step.look fun m => m.elements (.array a) ++ m.elements r
    newArray values
  | l, .array b => do
    let values ← Step.look fun m => m.elements l ++ m.elements (.array b)
    newArray values
  | .str s, r => do
    let t ← textOf r
    return .str (s ++ t)
  | l, .str t => do
    let s ← textOf l
    return .str (s ++ t)
  | l, r => return .int (l.toInt + r.toInt)

/-- The order of two values: that of integers for two integers, and that of the string forms
otherwise. -/
def order (l r : Value) : Step Memory Ordering :=
  match l, r with
  | .int a, .int b => return compare a.toInt b.toInt
  | l, r => do
    let s ← textOf l
    let t ← textOf r
    return compare s t

/-- Applies `f` to every element of an array, for a new array, or to anything else as it is. -/
def mapElements (f : Value → Step Memory Value) (v : Value) : Step Memory Value :=
  match v with
  | .array a => do
    let values ← Step.look fun m => m.elements (.array a)
    let results ← Step.each f values
    newArray results
  | v => f v

/-- Applies `f` to the string form of every element of an array, or of anything else. -/
def mapTexts (f : String → String) : Value → Step Memory Value :=
  mapElements fun v => do
    let s ← textOf v
    return .str (f s)

/-! ## Variables -/

/-- A new scope, inside of another one or on its own. -/
def newScope (outer : Option ScopeId) : Step Memory ScopeId := fun m =>
  let around :=
    match outer with
    | some s => s :: (m.scope s).around
    | none => []
  (.ok ⟨m.scopes.size⟩, { m with scopes := m.scopes.push ⟨.empty, around⟩ })

/-- Binds a name in a scope to a cell. -/
def bind (s : ScopeId) (name : String) (c : CellId) : Step Memory Unit :=
  .change fun m =>
    let scope := m.scope s
    { m with scopes := m.scopes.setIfInBounds s.index { scope with vars := scope.vars.insert name c } }

/-- The cell of a variable in a scope; a new one starts with the value visible so far. -/
def varCell (s : ScopeId) (name : String) : Step Memory CellId := do
  match ← Step.look fun m => (m.scope s).vars.get? name with
  | some c => return c
  | none => do
    let v ← Step.look fun m => m.getVar s name
    let c ← newCell v
    bind s name c
    return c

/-- Gives a variable of a scope a value. -/
def setVar (s : ScopeId) (name : String) (v : Value) : Step Memory Unit := do
  match ← Step.look fun m => (m.scope s).vars.get? name with
  | some c => write c v
  | none => do
    let c ← newCell v
    bind s name c

end Memory

end Kiln
