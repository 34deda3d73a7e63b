import Kiln.Digest
import Kiln.Text.Numeral
import Kiln.Text.Pieces

/-!
# Kiln.Value — runtime values

A `Value` is a scalar or the identity of an array or a dictionary, whose contents live in
`Kiln.Memory`; copies of a value share them.  A `Tree` is what a value looks like at one moment, with
all contents in place: the string form and the fingerprint of a value are functions of its tree.
-/

namespace Kiln

open Kiln.Text

/-- The identity of a cell, which holds one value. -/
structure CellId where
  index : Nat
  deriving DecidableEq, Repr

/-- The identity of an array. -/
structure ArrayId where
  index : Nat
  deriving DecidableEq, Repr

/-- The identity of a dictionary. -/
structure DictId where
  index : Nat
  deriving DecidableEq, Repr

/-- A runtime value. -/
inductive Value where
  | void
  | int (n : Int32)
  | str (s : String)
  | array (id : ArrayId)
  | dict (id : DictId)
  deriving DecidableEq, Repr, Inhabited

namespace Value

/-- The value of a truth value. -/
def ofBool (b : Bool) : Value := .int (if b then 1 else 0)

/-- The number a value stands for: a string counts as the number at its start, and everything else
but integers as 0. -/
def toInt : Value → Int32
  | int n => n
  | str s => Numeral.coerce s
  | _ => 0

/-- Whether a value counts as true. -/
def isTrue (v : Value) : Bool := v.toInt ≠ 0

/-- The name of a value's type. -/
def tag : Value → String
  | void => "void"
  | int _ => "int"
  | str _ => "string"
  | array _ => "array"
  | dict _ => "dict"

end Value

/-- What a value looks like at one moment. -/
inductive Tree where
  | void
  | int (n : Int32)
  | str (s : String)
  | array (elements : List Tree)
  | dict (entries : List (String × Tree))
  deriving Repr

namespace Tree

/-- The name of a value's type. -/
def tag : Tree → String
  | void => "void"
  | int _ => "int"
  | str _ => "string"
  | array _ => "array"
  | dict _ => "dict"

mutual

/-- The string form.  Elements stand in quotes, which are not escaped. -/
def text : Tree → String
  | void => ""
  | int n => Numeral.decimal n
  | str s => s
  | array elements => "[" ++ Pieces.join ", " (elementTexts elements) ++ "]"
  | dict entries => "\x7b" ++ Pieces.join ", " (entryTexts entries) ++ "\x7d"

/-- The quoted string forms of the elements of an array. -/
def elementTexts : List Tree → List String
  | [] => []
  | t :: rest => ("\"" ++ t.text ++ "\"") :: elementTexts rest

/-- The string forms of the entries of a dictionary. -/
def entryTexts : List (String × Tree) → List String
  | [] => []
  | (k, t) :: rest => ("\"" ++ k ++ "\": \"" ++ t.text ++ "\"") :: entryTexts rest

end

mutual

/-- What is fingerprinted of a value. -/
def encode : Tree → String
  | void => Digest.header "void"
  | int n => Digest.header "int" ++ Numeral.decimal n
  | str s => Digest.header "string" ++ s
  | array elements => Digest.header "array" ++ encodeElements elements
  | dict entries => Digest.header "dict" ++ encodeEntries entries

/-- What is fingerprinted of the elements of an array. -/
def encodeElements : List Tree → String
  | [] => ""
  | t :: rest => "ref:" ++ t.encode ++ encodeElements rest

/-- What is fingerprinted of the entries of a dictionary. -/
def encodeEntries : List (String × Tree) → String
  | [] => ""
  | (k, t) :: rest => "key:" ++ k ++ "ref:" ++ t.encode ++ encodeEntries rest

end

end Tree

end Kiln
