import Kiln.Stmt.Parser
import Kiln.Table

/-!
# Kiln.Module — source units

A module is a source text taken apart: its functions by name, the names of its targets in the order
of their definitions, and its top-level statements.
-/

namespace Kiln

/-- A source text taken apart. -/
structure Module where
  /-- Names the module in locations and in the digest store. -/
  path : String
  functions : Table Function
  /-- Target names in definition order. -/
  targets : List String
  body : List Stmt

namespace Parser

/-- The parameter names of a definition after the opening bracket, and the closing one. -/
def parametersWithin : Nat → Parser (List String)
  | 0 => .stuck
  | n + 1 => do
    let t ← token
    if t.reads ")" then return []
    else if t.kind ≠ .name then complain "Expected parameter name"
    else do
      let separator ← token
      if separator.reads ")" then return [t.text]
      else if separator.reads "," then do
        let rest ← parametersWithin n
        return t.text :: rest
      else complain "Expected , or )"

/-- A definition after its keyword; its name must be new to `known`. -/
def definitionWithin (n : Nat) (isTarget : Bool) (known : Table Function) : Parser Function := do
  let name ← token
  if name.kind ≠ .name then complain "Expected function name"
  else do
    let _ ← expect "(" "Expected ("
    let params ← parametersWithin n
    let body ← statementWithin n
    if known.contains name.text then complain "Function already exists"
    else return ⟨name.text, params, body, isTarget⟩

/-- The definitions and statements up to the end of the text, as a module; `known` are the functions
defined before. -/
def unitsWithin (path : String) : Nat → Table Function → Parser Module
  | 0, _ => .stuck
  | n + 1, known => do
    let t ← token
    if t.kind = .eof then return ⟨path, known, [], []⟩
    else if t.reads "function" || t.reads "target" then do
      let f ← definitionWithin n (t.text = "target") known
      let m ← unitsWithin path n (known.insert f.name f)
      return if f.isTarget then { m with targets := f.name :: m.targets } else m
    else do
      pushBack t
      let s ← statementWithin n
      let m ← unitsWithin path n known
      return { m with body := s :: m.body }

end Parser

namespace Module

/-- Reads a module; `path` names it. -/
def parse (text path : String) : Outcome Module :=
  let stream := Stream.ofText text path
  (Parser.unitsWithin path stream.depthBound .empty stream).1

/-- Whether the module defines a target of that name. -/
def hasTarget (m : Module) (name : String) : Bool :=
  m.targets.contains name

/-- The target that runs when none is asked for: `default`, or else `all`. -/
def defaultTarget? (m : Module) : Option String :=
  ["default", "all"].find? m.hasTarget

/-- The functions a run takes over from the module, by name; targets only if `targets` is set. -/
def exported (m : Module) (targets : Bool) : List Function :=
  m.functions.values.filter fun f => targets || !f.isTarget

end Module

end Kiln
