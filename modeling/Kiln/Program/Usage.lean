import Kiln.Program.Child

/-!
# Kiln.Program.Usage — options of programs, and how complaints name things

Options are letters after a dash, several in one argument, or long names after two, which may be cut
short as long as they stay unique.  They may stand anywhere before `--`.
-/

namespace Kiln.Program.Usage

open Kiln.Text

/-- A complaint about the arguments of a program. -/
def complaint (program text : String) : String :=
  program ++ ": " ++ text ++ "\nTry '" ++ program ++ " --help' for more information."

/-- The letter of a long option; a start of its name will do if no other name starts so. -/
def longOption (names : List (String × Char)) (text : String) : Except String Char :=
  let (name, value?) :=
    match Pieces.cut? '=' text.toList with
    | some (n, v) => (String.ofList n, some v)
    | none => (text, none)
  let found :=
    match names.find? (·.1 = name) with
    | some e => [e]
    | none => names.filter fun e => name.toList.isPrefixOf e.1.toList
  match found with
  | [] => .error ("unrecognized option '--" ++ text ++ "'")
  | [(full, letter)] =>
    if value?.isSome then .error ("option '--" ++ full ++ "' doesn't allow an argument")
    else .ok letter
  | several =>
    .error ("option '--" ++ text ++ "' is ambiguous; possibilities:" ++
      String.join (several.map fun e => " '--" ++ e.1 ++ "'"))

/-- Reads arguments: the letters of the options, and the other arguments. -/
def read (letters : List Char) (names : List (String × Char)) :
    List String → Except String (List Char × List String)
  | [] => .ok ([], [])
  | a :: rest => do
    match a.toList with
    | ['-', '-'] => return ([], rest)
    | '-' :: '-' :: cs => do
      let letter ← longOption names (String.ofList cs)
      let (more, others) ← read letters names rest
      return (letter :: more, others)
    | '-' :: c :: cs =>
      match (c :: cs).find? (!letters.contains ·) with
      | some bad => throw ("invalid option -- '" ++ String.singleton bad ++ "'")
      | none => do
        let (more, others) ← read letters names rest
        return (c :: cs ++ more, others)
    | _ => do
      let (more, others) ← read letters names rest
      return (more, a :: others)

/-! ## Names in complaints -/

/-- The escape of a byte that cannot be shown. -/
def escapeByte (b : UInt8) : String :=
  match b.toNat with
  | 7 => "\\a"
  | 8 => "\\b"
  | 9 => "\\t"
  | 10 => "\\n"
  | 11 => "\\v"
  | 12 => "\\f"
  | 13 => "\\r"
  | n => "\\" ++ String.ofList ([n / 64, n / 8 % 8, n % 8].map fun d => Char.ofNat (48 + d))

/-- Whether a byte can be shown. -/
def isShown (b : UInt8) : Bool := 32 ≤ b && b < 127

/-- A name between single quotes; `escaping` says that the last byte could not be shown. -/
def quotedFrom : Bool → List UInt8 → String
  | _, [] => "'"
  | escaping, b :: rest =>
    if isShown b then
      (if escaping then "''" else "") ++
        (if b = 39 then "'\\''" else String.singleton (Char.ofNat b.toNat)) ++ quotedFrom false rest
    else (if escaping then "" else "'$'") ++ escapeByte b ++ quotedFrom true rest

/-- Whether a character has no meaning to a shell, nor inside of double quotes. -/
def isHarmless (c : Char) : Bool :=
  c.isAlphanum || c = '\'' || "%+,-./:]_ ".toList.contains c

/-- Whether a character makes it necessary to quote a name. -/
def isSpecial (c : Char) : Bool :=
  " !\"$&()*;<=>[^|\\':?".toList.contains c || c.toNat = 96

/-- A name as complaints show it: quoted if it holds something special. -/
def quoteName (name : String) : String :=
  let cs := name.toList
  let bytes := utf8 name
  let first := cs.head?.any fun c => c = '#' || c = '~'
  let brace := cs = ['\x7b'] || cs = ['\x7d']
  if !cs.isEmpty && !first && !brace && !cs.any isSpecial && bytes.all isShown then name
  else if cs.contains '\'' && cs.all isHarmless then "\"" ++ name ++ "\""
  else "'" ++ quotedFrom false bytes

end Kiln.Program.Usage
