import Kiln.Error
import Kiln.Expr

/-!
# Kiln.Stmt — statements and functions

The syntax of statements.  Every statement knows its location, which errors raised inside it carry.
-/

namespace Kiln

/-- A statement. -/
inductive Stmt where
  | expr (loc : Location) (e : Expr)
  | block (loc : Location) (body : List Stmt)
  | branch (loc : Location) (cond : Expr) (yes : Stmt) (no : Option Stmt)
  /-- A loop with optional clauses; without a condition it runs until it is left. -/
  | loop (loc : Location) (init cond next : Option Expr) (body : Stmt)
  | foreach (loc : Location) (name : String) (items : Expr) (body : Stmt)
  | breakStmt (loc : Location)
  | continueStmt (loc : Location)
  | returnStmt (loc : Location) (value : Option Expr)
  /-- Runs `action` unless it is up to date with `paths` and with what it reads. -/
  | depends (loc : Location) (paths : Expr) (action : Stmt)
  /-- Loads a module with its targets. -/
  | includeStmt (loc : Location) (path : Expr)
  /-- Loads a module without its targets, in the module's own directory. -/
  | usingStmt (loc : Location) (path : Expr)
  deriving Repr

/-- Where a statement starts. -/
def Stmt.location : Stmt → Location
  | expr loc _ | block loc _ | branch loc _ _ _ | loop loc _ _ _ _ | foreach loc _ _ _ | breakStmt loc
  | continueStmt loc | returnStmt loc _ | depends loc _ _ | includeStmt loc _
  | usingStmt loc _ => loc

/-- A function or target of a script. -/
structure Function where
  name : String
  params : List String
  body : Stmt
  isTarget : Bool
  deriving Repr

end Kiln
