/-!
# Kiln.Text.Regex — regular expressions

Regular expressions come from a library, which is a parameter: it quotes what has a meaning of its own
in an expression, and it compiles an expression or says why it does not, as when the compiled form
grows too large.  What its documentation says of the expressions in use here is
`Regex.Library.Documented`, beside the proofs.

`anchored` is the library for running scripts.  It knows no more than the expressions of whole texts
that are put together from `.`, `.*`, single characters and the class of no character.  Its matcher
goes through the items once and keeps, for every end piece of the text, whether the items seen so far
(from the right) take all of it, so its work is the product of the two lengths.
-/

namespace Kiln.Text.Regex

/-- A library of regular expressions. -/
structure Library where
  /-- An expression for a text itself. -/
  escape : String → String
  /-- Compiles an expression: the texts it is found in, or why it is refused. -/
  compile : String → Except String (String → Bool)

/-- Characters that mean something else in an expression unless they are quoted. -/
def significant : List Char :=
  ['\\', '.', '+', '*', '?', '(', ')', '|', '[', ']', '\x7b', '\x7d', '^', '$']

/-- Whether a backslash makes the character stand for itself. -/
def isQuotable (c : Char) : Bool :=
  c.toNat < 128 && !c.isAlphanum && c != '<' && c != '>'

/-- One item of an expression for whole texts. -/
inductive Item where
  /-- Any run of characters. -/
  | run
  /-- Any one character. -/
  | one
  /-- The character itself. -/
  | exactly (c : Char)
  /-- Takes nothing at all, not even the empty text. -/
  | never
  deriving DecidableEq, Repr

/-- The class of no character, without the bracket it begins with. -/
def emptyClass : List Char := ['^', '\\', 's', '\\', 'S', ']']

/-- The first item of an expression, and what comes behind it. -/
def item? : List Char → Option (Item × List Char)
  | [] => none
  | c :: rest =>
    if c = '.' then
      match rest with
      | '*' :: rest => some (.run, rest)
      | _ => some (.one, rest)
    else if c = '[' then
      if emptyClass.isPrefixOf rest then some (.never, rest.drop emptyClass.length) else none
    else if c = '\\' then
      match rest with
      | c :: rest => if isQuotable c then some (.exactly c, rest) else none
      | [] => none
    else if c ∈ significant then none
    else some (.exactly c, rest)

/-- The items of an expression, read up to the `$` at its end; there are no more than `bound`. -/
def items? : Nat → List Char → Option (List Item)
  | _, ['$'] => some []
  | 0, _ => none
  | bound + 1, text => do
    let (item, rest) ← item? text
    let more ← items? bound rest
    return item :: more

/-! ## Matching -/

/-- For every end piece of `text`, longest first: whether it is empty. -/
def emptyEnds (text : List Char) : List Bool :=
  text.map (fun _ => false) ++ [true]

/-- For every end piece: whether it or a shorter one is marked. -/
def anyLater (ends : List Bool) : List Bool :=
  ends.foldr (fun b later => (b || later.headD false) :: later) []

/-- Which end pieces of `text` an item followed by more items takes, given which ones those take. -/
def Item.extend (text : List Char) : Item → List Bool → List Bool
  | run, ends => anyLater ends
  | one, ends => ends.tail ++ [false]
  | exactly c, ends => List.zipWith (fun c' b => c' == c && b) text ends.tail ++ [false]
  | never, ends => ends.map fun _ => false

/-- Which end pieces of `text` a list of items takes. -/
def takes (text : List Char) (its : List Item) : List Bool :=
  its.foldr (fun item ends => item.extend text ends) (emptyEnds text)

/-- Whether the items take the whole of `text`. -/
def matches? (its : List Item) (text : String) : Bool :=
  (takes text.toList its).headD false

/-! ## The library of anchored expressions -/

/-- One character in an expression that stands for it. -/
def escapeChar (c : Char) : List Char :=
  if c ∈ significant then ['\\', c] else [c]

/-- Expressions `(?s)^...$` of a few items. -/
def anchored : Library where
  escape s := String.ofList (s.toList.flatMap escapeChar)
  compile expression :=
    match expression.toList with
    | '(' :: '?' :: 's' :: ')' :: '^' :: rest =>
      match items? rest.length rest with
      | some its => .ok (matches? its)
      | none => .error "expression not supported"
    | _ => .error "expression not supported"

end Kiln.Text.Regex
