import Kiln.Shell.Syntax

/-!
# Kiln.Shell.Parser — reading commands

The reader takes one complete line of commands at a time, `nextLine`: what follows a line is read only
after the line ran.  Words are read into pieces, with the commands inside of them, in one pass.  All
functions of the grammar recurse on a bound on depth, which `bound` takes from the length of the text.
-/

namespace Kiln.Shell

/-- A text that is no command, and the line on which it was noticed. -/
structure SyntaxError where
  line : Nat
  text : String
  deriving DecidableEq, Repr

/-- A token. -/
inductive Token where
  | endOfFile
  | newline
  | op (text : String)
  | keyword (text : String)
  /-- A redirection without its target, by its operator and its stream. -/
  | redirect (operator : String) (fd : Nat)
  | word (pieces : Word)

/-- A token as complaints name it. -/
def Token.name : Token → String
  | endOfFile => "end of file"
  | newline => "newline"
  | op text => "\"" ++ text ++ "\""
  | keyword text => "\"" ++ text ++ "\""
  | redirect .. => "redirection"
  | word _ => "word"

/-- A text in the script that is still to be read: it ends at the line `mark`. -/
structure Pending where
  index : Nat
  mark : List Char
  /-- Whether tabs at the start of its lines are dropped. -/
  stripped : Bool
  /-- Whether it is taken as it stands. -/
  literal : Bool

/-- A script that is being read. -/
structure Source where
  rest : List Char
  line : Nat
  /-- A token that was handed back. -/
  pushed : Option Token
  pending : List Pending
  /-- The texts in the script read so far, by their numbers. -/
  documents : List (Nat × Word)
  /-- The number of the next one. -/
  nextDocument : Nat

/-- A step of the reader. -/
abbrev Reader (α : Type) := StateT Source (Except SyntaxError) α

namespace Reader

/-- Ends with a complaint. -/
def complain {α : Type} (text : String) : Reader α := do
  throw ⟨(← get).line, "Syntax error: " ++ text⟩

/-- Ends with a complaint about a token, and what should have stood there. -/
def unexpected {α : Type} (t : Token) (expecting : String) : Reader α :=
  complain (t.name ++ " unexpected" ++
    if expecting = "" then "" else " (expecting \"" ++ expecting ++ "\")")

/-- Ends because the bound on depth ran out. -/
def tooDeep {α : Type} : Reader α := complain "nested too deep"

/-! ## Characters -/

/-- The text that is left, with escaped line ends skipped. -/
def peek : Reader (List Char) := do
  let s ← get
  let rec skip (line : Nat) : List Char → List Char × Nat
    | '\\' :: '\n' :: rest => skip (line + 1) rest
    | cs => (cs, line)
  let (rest, line) := skip s.line s.rest
  set { s with rest, line }
  return rest

/-- Takes `n` characters. -/
def drop (n : Nat) : Reader Unit :=
  modify fun s =>
    { s with rest := s.rest.drop n, line := s.line + (s.rest.take n).count '\n' }

/-- Takes the characters up to the first that does not satisfy `p`. -/
def takeWhile (p : Char → Bool) : Reader (List Char) := do
  let s ← get
  let cs := s.rest.takeWhile p
  drop cs.length
  return cs

/-- Takes the characters of a name, across escaped line ends; `bound` bounds their number. -/
def name : Nat → Reader (List Char)
  | 0 => return []
  | bound + 1 => do
    match ← peek with
    | c :: _ =>
      if isNameChar c then do
        drop 1
        return c :: (← name bound)
      else return []
    | [] => return []

/-- The parameters with one character for a name. -/
def isSpecial (c : Char) : Bool :=
  c.isDigit || c = '?' || c = '#' || c = '@' || c = '*' || c = '$' || c = '!' || c = '-'

/-- Whether a character ends an unquoted word. -/
def endsWord (c : Char) : Bool :=
  c = ' ' || c = '\t' || c = '\n' || c = ';' || c = '&' || c = '|' || c = '<' || c = '>' ||
    c = '(' || c = ')'

/-! ## Pieces of words -/

/-- Inside of what pieces are read. -/
inductive Place where
  /-- A word outside of quotes. -/
  | plain
  /-- Between double quotes. -/
  | quotes
  /-- In braces, outside or inside of double quotes. -/
  | braces (quoted : Bool)
  /-- In arithmetic, inside of so many parentheses. -/
  | arithmetic (parens : Nat)
  /-- In a text that is expanded to its end. -/
  | document
  deriving DecidableEq, Repr

/-- Whether text is quoted at a place. -/
def Place.quoted : Place → Bool
  | plain => false
  | quotes => true
  | braces q => q
  | arithmetic _ => true
  | document => true

/-- Whether a character may have a meaning at a place. -/
def Place.isMeta (p : Place) (c : Char) : Bool :=
  c = '\\' || c = '$' || c.toNat = 96 ||
    match p with
    | plain => c = '\'' || c = '"' || endsWord c
    | quotes => c = '"'
    | braces q => c = '\x7d' || c = '"' || (c = '\'' && !q)
    | arithmetic _ => c = '(' || c = ')' || c = '"'
    | document => false

/-- The characters a backslash takes the meaning of at a place where text is quoted. -/
def Place.isEscapable (p : Place) (c : Char) : Bool :=
  c = '\\' || c = '$' || c.toNat = 96 ||
    match p with
    | braces _ => c = '"' || c = '\x7d'
    | document => false
    | _ => c = '"'

/-- The text between the backquotes of a substitution, with the backslashes that hide a backquote, a
dollar sign or a backslash taken away, and what follows. -/
def backquoted (quoted : Bool) : List Char → Option (List Char × List Char)
  | [] => none
  | ['\\'] => none
  | '\\' :: c :: rest =>
    let hides := c = '\\' || c = '$' || c.toNat = 96 || (quoted && c = '"')
    (backquoted quoted rest).map fun (inner, after) =>
      (if hides then c :: inner else '\\' :: c :: inner, after)
  | c :: rest =>
    if c.toNat = 96 then some ([], rest)
    else (backquoted quoted rest).map fun (inner, after) => (c :: inner, after)

/-- A single quoted text and what follows it. -/
def singleQuoted : List Char → Option (List Char × List Char)
  | [] => none
  | '\'' :: rest => some ([], rest)
  | c :: rest => (singleQuoted rest).map fun (inner, after) => (c :: inner, after)

/-- Takes a single quoted text, whose opening quote is next. -/
def single : Reader Piece := do
  let s ← get
  match singleQuoted (s.rest.drop 1) with
  | some (inner, _) => do
    drop (inner.length + 2)
    return .text inner true
  | none => do
    drop s.rest.length
    complain "Unterminated quoted string"

/-- The complaint about a text that ends inside of a place, if it may not. -/
def Place.openComplaint? : Place → Option String
  | plain => none
  | document => none
  | quotes => some "Unterminated quoted string"
  | braces _ => some "Missing '\x7d'"
  | arithmetic _ => some "Missing '))'"

/-! ## Texts in the script -/

/-- The next line of a text, and what follows it; none at the end. -/
def cutLine (cs : List Char) : Option (List Char × List Char) :=
  if cs.isEmpty then none
  else some (cs.takeWhile (· ≠ '\n'), (cs.dropWhile (· ≠ '\n')).drop 1)

/-- Takes the lines of a text up to its mark. -/
def documentLines (p : Pending) : Nat → Reader (List Char)
  | 0 => return []
  | bound + 1 => do
    let s ← get
    match cutLine s.rest with
    | none => return []
    | some (line, _) => do
      let ended := (s.rest.drop line.length).isEmpty
      drop (line.length + 1)
      let shown := if p.stripped then line.dropWhile (· = '\t') else line
      if shown = p.mark then return []
      else do
        let more ← documentLines p bound
        return shown ++ (if ended then [] else ['\n']) ++ more

/-! ## Redirections -/

/-- The redirection operators, longer ones first. -/
def redirectOperators : List String :=
  ["<<-", "<<", "<&", "<>", "<", ">>", ">&", ">|", ">"]

/-- The redirection operator at the start of a text. -/
def redirectOperator? (cs : List Char) : Option String :=
  redirectOperators.find? fun op => op.toList.isPrefixOf cs

/-- The other operators, longer ones first. -/
def operators : List String := ["&&", "||", ";;", ";", "&", "|", "(", ")"]

/-- The operator at the start of a text. -/
def operator? (cs : List Char) : Option String :=
  operators.find? fun op => op.toList.isPrefixOf cs

/-- Hands a token back. -/
def pushBack (t : Token) : Reader Unit := modify fun s => { s with pushed := some t }

/-- Makes a keyword of a word that spells one. -/
def asKeyword (t : Token) : Token :=
  match t with
  | .word w =>
    match plainText? w with
    | some text => if keywords.contains text then .keyword text else t
    | none => t
  | t => t

/-- Whether a word assigns a variable. -/
def isAssignment : Word → Bool
  | .text cs false :: _ => cs.contains '=' && isName (cs.takeWhile (· ≠ '='))
  | _ => false

/-- The mark of a text in the script, and whether it is taken as it stands. -/
def markOf (w : Word) : List Char × Bool :=
  (w.flatMap fun
    | .text cs _ => cs
    | .param name _ _ => '$' :: name.toList
    | _ => [],
   w.any fun
    | .text _ quoted => quoted
    | _ => false)

/-- The tokens that end a list of commands. -/
def endsList : Token → Bool
  | .endOfFile => true
  | .op text => text = ")" || text = ";;"
  | .keyword text => ["do", "done", "elif", "else", "esac", "fi", "then", "\x7d"].contains text
  | _ => false

/-- Sends the last command of a list to the background. -/
def background : Command → Command
  | .sequence first second => .sequence first (.background second)
  | c => .background c

/-- The built-in commands whose names no function may have. -/
def specialBuiltins : List String :=
  [".", ":", "break", "continue", "eval", "exec", "exit", "export", "readonly", "return", "set",
    "shift", "times", "trap", "unset"]

mutual

/-- Takes pieces up to the end of a place. -/
def pieces : Nat → Place → Reader Word
  | 0, _ => tooDeep
  | n + 1, place => do
    let run ← takeWhile (!place.isMeta ·)
    let before : Word := if run.isEmpty then [] else [.text run place.quoted]
    match (← get).rest with
    | [] =>
      match place.openComplaint? with
      | some text => complain text
      | none => return before
    | c :: after =>
      if c = '\\' then
        match after with
        | [] => do
          drop 1
          return before ++ [.text ['\\'] true]
        | '\n' :: _ => do
          drop 2
          return before ++ (← pieces n place)
        | d :: _ => do
          drop 2
          let kept := if place.quoted && !place.isEscapable d then ['\\', d] else [d]
          return before ++ .text kept true :: (← pieces n place)
      else if c = '$' then do
        let p ← dollar n place.quoted
        return before ++ p :: (← pieces n place)
      else if c.toNat = 96 then do
        let p ← backquote n place.quoted
        return before ++ p :: (← pieces n place)
      else
        match place with
        | .plain =>
          if c = '\'' then do
            let p ← single
            return before ++ p :: (← pieces n place)
          else if c = '"' then do
            drop 1
            let inner ← pieces n .quotes
            let inner := if inner.isEmpty then [.text [] true] else inner
            return before ++ inner ++ (← pieces n place)
          else return before
        | .quotes => do
          drop 1
          return before
        | .braces quoted =>
          if c = '\x7d' then do
            drop 1
            return before
          else if c = '\'' then do
            let p ← single
            return before ++ p :: (← pieces n place)
          else do
            drop 1
            let inner ← pieces n .quotes
            let inner := if inner.isEmpty && !quoted then [.text [] true] else inner
            return before ++ inner ++ (← pieces n place)
        | .arithmetic parens =>
          if c = '"' then do
            drop 1
            return before ++ (← pieces n place)
          else if c = '(' then do
            drop 1
            return before ++ .text ['('] true :: (← pieces n (.arithmetic (parens + 1)))
          else
            match parens with
            | parens + 1 => do
              drop 1
              return before ++ .text [')'] true :: (← pieces n (.arithmetic parens))
            | 0 => do
              drop 1
              match ← peek with
              | ')' :: _ => do
                drop 1
                return before
              | _ => complain "Missing '))'"
        | .document => return before

/-- Takes what a dollar sign starts. -/
def dollar : Nat → Bool → Reader Piece
  | 0, _ => tooDeep
  | n + 1, quoted => do
    drop 1
    match ← peek with
    | '(' :: _ => do
      drop 1
      match ← peek with
      | '(' :: _ => do
        drop 1
        return .arithmetic (← pieces n (.arithmetic 0)) quoted
      | _ => do
        let body ← substitution n
        return .output body quoted
    | '\x7b' :: _ => do
      drop 1
      braced n quoted
    | c :: _ =>
      if isNameStart c then do
        let bound := (← get).rest.length
        return .param (String.ofList (← name bound)) .value quoted
      else if isSpecial c then do
        drop 1
        return .param (String.singleton c) .value quoted
      else return .text ['$'] true
    | [] => return .text ['$'] true

/-- Takes a parameter in braces, after the opening one. -/
def braced : Nat → Bool → Reader Piece
  | 0, _ => tooDeep
  | n + 1, quoted => do
    let cs ← peek
    let bound := cs.length
    let parameter : Reader (Option String) := do
      match ← peek with
      | c :: _ =>
        if isNameStart c then return some (String.ofList (← name bound))
        else if c.isDigit then return some (String.ofList (← takeWhile Char.isDigit))
        else if isSpecial c then do
          drop 1
          return some (String.singleton c)
        else return none
      | [] => return none
    let counts :=
      match cs with
      | '#' :: c :: d :: _ =>
        if isNameChar c then true else isSpecial c && d = '\x7d'
      | _ => false
    if counts then do
      drop 1
      let p ← parameter
      match p, ← peek with
      | some p, '\x7d' :: _ => do
        drop 1
        return .param p .length quoted
      | _, _ => do
        let _ ← pieces n (.braces quoted)
        return .param "" .unknown quoted
    else do
      let p ← parameter
      let rest ← peek
      let word (m : Nat) : Reader Word := do
        drop m
        pieces n (.braces quoted)
      match p with
      | none => do
        let _ ← word 0
        return .param "" .unknown quoted
      | some p =>
        match rest with
        | '\x7d' :: _ => do
          drop 1
          return .param p .value quoted
        | ':' :: '-' :: _ => return .param p (.orElse true (← word 2)) quoted
        | ':' :: '=' :: _ => return .param p (.assign true (← word 2)) quoted
        | ':' :: '?' :: _ => return .param p (.demand true (← word 2)) quoted
        | ':' :: '+' :: _ => return .param p (.instead true (← word 2)) quoted
        | '-' :: _ => return .param p (.orElse false (← word 1)) quoted
        | '=' :: _ => return .param p (.assign false (← word 1)) quoted
        | '?' :: _ => return .param p (.demand false (← word 1)) quoted
        | '+' :: _ => return .param p (.instead false (← word 1)) quoted
        | '%' :: '%' :: _ => do
          drop 2
          return .param p (.trim true true (← pieces n (.braces false))) quoted
        | '%' :: _ => do
          drop 1
          return .param p (.trim true false (← pieces n (.braces false))) quoted
        | '#' :: '#' :: _ => do
          drop 2
          return .param p (.trim false true (← pieces n (.braces false))) quoted
        | '#' :: _ => do
          drop 1
          return .param p (.trim false false (← pieces n (.braces false))) quoted
        | _ => do
          let _ ← word 0
          return .param p .unknown quoted

/-- Takes the command of a substitution up to its closing parenthesis. -/
def substitution : Nat → Reader (Option Command)
  | 0 => tooDeep
  | n + 1 => do
    let outer ← get
    set { outer with pushed := none, pending := [] }
    let body ← list n true
    let t ← token n true true
    match t with
    | .op ")" => do
      modify fun s => { s with pending := outer.pending, pushed := outer.pushed }
      return body
    | t => unexpected t ")"

/-- Takes a substitution between backquotes. -/
def backquote : Nat → Bool → Reader Piece
  | 0, _ => tooDeep
  | n + 1, quoted => do
    let outer ← get
    match backquoted quoted (outer.rest.drop 1) with
    | none => do
      drop outer.rest.length
      complain "EOF in backquote substitution"
    | some (inner, after) => do
      set { outer with rest := inner, pushed := none, pending := [] }
      let body ← list n true
      let line := outer.line + (outer.rest.take (outer.rest.length - after.length)).count '\n'
      modify fun s =>
        { s with rest := after, line, pending := outer.pending, pushed := outer.pushed }
      return .output body quoted

/-- Takes the texts in the script that are still to be read. -/
def documents : Nat → List Pending → Reader Unit
  | 0, _ => tooDeep
  | _, [] => return ()
  | n + 1, p :: rest => do
    let lines ← documentLines p ((← get).rest.length + 1)
    let doc ←
      if p.literal then pure [Piece.text lines true]
      else do
        let outer ← get
        set { outer with rest := lines }
        let doc ← pieces n .document
        modify fun s => { s with rest := outer.rest, line := outer.line }
        pure doc
    modify fun s => { s with documents := (p.index, doc) :: s.documents }
    documents n rest

/-- Takes the next token as it stands. -/
def scan : Nat → Reader Token
  | 0 => tooDeep
  | n + 1 => do
    let _ ← takeWhile fun c => c = ' ' || c = '\t'
    match ← peek with
    | [] => do
      let waiting := (← get).pending
      modify fun s => { s with pending := [] }
      documents n waiting
      return .endOfFile
    | '#' :: _ => do
      let _ ← takeWhile (· ≠ '\n')
      scan n
    | '\n' :: _ => do
      drop 1
      let waiting := (← get).pending
      modify fun s => { s with pending := [] }
      documents n waiting
      return .newline
    | c :: rest =>
      if c = ' ' || c = '\t' then scan n
      else
        match operator? (c :: rest) with
        | some op => do
          drop op.length
          return .op op
        | none => do
          let fd := if c.isDigit then some (c.toNat - 48) else none
          let after := if fd.isSome then rest else c :: rest
          match redirectOperator? after with
          | some op => do
            drop (op.length + if fd.isSome then 1 else 0)
            let usual := if op.toList.head? = some '<' then 0 else 1
            return .redirect op (fd.getD usual)
          | none => return .word (← pieces n .plain)

/-- Takes the next token, past line ends and with keywords told apart if asked to. -/
def token : Nat → Bool → Bool → Reader Token
  | 0, _, _ => tooDeep
  | n + 1, skipLines, keywords => do
    let s ← get
    let t ←
      match s.pushed with
      | some t => do
        set { s with pushed := none }
        pure t
      | none => scan n
    match t with
    | .newline => if skipLines then token n skipLines keywords else return .newline
    | t => return if keywords then asKeyword t else t

/-- Takes a list of commands.  Inside of a compound command line ends separate commands; an empty list
is taken only where `mayBeEmpty` says so. -/
def list : Nat → Bool → Reader (Option Command)
  | 0, _ => tooDeep
  | n + 1, mayBeEmpty => do
    let t ← token n true true
    pushBack t
    if t matches .endOfFile then return none
    else if mayBeEmpty && endsList t then return none
    else do
      let first ← andOr n
      some <$> listRest n first

/-- Takes what follows the first command of a list. -/
def listRest : Nat → Command → Reader Command
  | 0, _ => tooDeep
  | n + 1, before => do
    let t ← token n false false
    let before := if t matches .op "&" then background before else before
    match t with
    | .newline | .op ";" | .op "&" => do
      let next ← token n true true
      pushBack next
      if endsList next then return before
      else do
        let second ← andOr n
        listRest n (.sequence before second)
    | t => do
      pushBack t
      return before

/-- Takes commands joined by `&&` and `||`. -/
def andOr : Nat → Reader Command
  | 0 => tooDeep
  | n + 1 => do
    let first ← pipeline n
    andOrRest n first

/-- Takes what follows the first of commands joined by `&&` and `||`. -/
def andOrRest : Nat → Command → Reader Command
  | 0, _ => tooDeep
  | n + 1, before => do
    let t ← token n false false
    match t with
    | .op "&&" => do
      let _ ← skipToCommand n
      let second ← pipeline n
      andOrRest n (.both before second)
    | .op "||" => do
      let _ ← skipToCommand n
      let second ← pipeline n
      andOrRest n (.either before second)
    | t => do
      pushBack t
      return before

/-- Skips line ends before a command. -/
def skipToCommand : Nat → Reader Unit
  | 0 => tooDeep
  | n + 1 => do
    let t ← token n true true
    pushBack t

/-- Takes a pipeline. -/
def pipeline : Nat → Reader Command
  | 0 => tooDeep
  | n + 1 => do
    let t ← token n false true
    let isNegated := t matches .keyword "!"
    if !isNegated then pushBack t
    let first ← command n
    let rest ← pipelineRest n
    let whole := if rest.isEmpty then first else Command.pipeline (first :: rest)
    return if isNegated then .negated whole else whole

/-- Takes the further commands of a pipeline. -/
def pipelineRest : Nat → Reader (List Command)
  | 0 => tooDeep
  | n + 1 => do
    let t ← token n false false
    match t with
    | .op "|" => do
      skipToCommand n
      let next ← command n
      return next :: (← pipelineRest n)
    | t => do
      pushBack t
      return []

/-- Takes a list that is not empty, unless the text ends here. -/
def body : Nat → Reader Command
  | 0 => tooDeep
  | n + 1 => do
    return (← list n false).getD (.simple 0 [] [] [])

/-- Takes a keyword. -/
def expect : Nat → String → Reader Unit
  | 0, _ => tooDeep
  | n + 1, text => do
    let t ← token n true true
    match t with
    | .keyword k => if k = text then return () else unexpected t text
    | .op k => if k = text then return () else unexpected t text
    | t => unexpected t text

/-- Takes a command. -/
def command : Nat → Reader Command
  | 0 => tooDeep
  | n + 1 => do
    let t ← token n false true
    let line := (← get).line
    match t with
    | .keyword "if" => do
      let c ← branch n
      redirections n c
    | .keyword "while" => do
      let test ← body n
      expect n "do"
      let inner ← body n
      expect n "done"
      redirections n (.loop false test inner)
    | .keyword "until" => do
      let test ← body n
      expect n "do"
      let inner ← body n
      expect n "done"
      redirections n (.loop true test inner)
    | .keyword "for" => do
      let c ← forLoop n line
      redirections n c
    | .keyword "case" => do
      let t ← token n false false
      match t with
      | .word subject => do
        expect n "in"
        let cases ← caseItems n
        redirections n (.choose line subject cases)
      | t => do
        unexpected t "word"
    | .op "(" => do
      let inner ← body n
      expect n ")"
      redirections n (.subshell inner)
    | .keyword "\x7b" => do
      let inner ← body n
      expect n "\x7d"
      redirections n inner
    | .word w => do
      pushBack (.word w)
      simple n line [] [] []
    | .redirect op fd => do
      pushBack (.redirect op fd)
      simple n line [] [] []
    | t => unexpected t ""

/-- Takes what follows `if`. -/
def branch : Nat → Reader Command
  | 0 => tooDeep
  | n + 1 => do
    let test ← body n
    expect n "then"
    let yes ← body n
    let t ← token n true true
    match t with
    | .keyword "elif" => do
      let no ← branch n
      return .branch test yes (some no)
    | .keyword "else" => do
      let no ← body n
      expect n "fi"
      return .branch test yes (some no)
    | .keyword "fi" => return .branch test yes none
    | t => unexpected t "fi"

/-- Takes what follows `for`. -/
def forLoop : Nat → Nat → Reader Command
  | 0, _ => tooDeep
  | n + 1, line => do
    let t ← token n false false
    let name? :=
      match t with
      | .word w => (plainText? w).filter fun s => isName s.toList
      | _ => none
    match name? with
    | none => complain "Bad for loop variable"
    | some name => do
      let t ← token n true true
      let items ←
        match t with
        | .keyword "in" => do
          let ws ← words n
          let t ← token n false false
          match t with
          | .newline | .op ";" => pure (some ws)
          | t => unexpected t ""
        | .op ";" => pure none
        | t => do
          pushBack t
          pure none
      expect n "do"
      let inner ← body n
      expect n "done"
      return .each line name items inner

/-- Takes words. -/
def words : Nat → Reader (List Word)
  | 0 => tooDeep
  | n + 1 => do
    let t ← token n false false
    match t with
    | .word w => return w :: (← words n)
    | t => do
      pushBack t
      return []

/-- Takes the items of a `case`, up to its end. -/
def caseItems : Nat → Reader (List (List Word × Option Command))
  | 0 => tooDeep
  | n + 1 => do
    let t ← token n true true
    match t with
    | .keyword "esac" => return []
    | t => do
      match t with
      | .op "(" => pure ()
      | t => pushBack t
      let patterns ← casePatterns n
      let inner ← list n true
      let t ← token n true true
      match t with
      | .keyword "esac" => return [(patterns, inner)]
      | .op ";;" => return (patterns, inner) :: (← caseItems n)
      | t => unexpected t ";;"

/-- Takes the patterns of an item, up to the closing parenthesis. -/
def casePatterns : Nat → Reader (List Word)
  | 0 => tooDeep
  | n + 1 => do
    let t ← token n false false
    let pattern : Word ←
      match t with
      | .word w => pure w
      | .keyword k => pure [.text k.toList false]
      | t => unexpected t ")"
    let t ← token n false false
    match t with
    | .op "|" => return pattern :: (← casePatterns n)
    | .op ")" => return [pattern]
    | t => unexpected t ")"

/-- Takes the target of a redirection. -/
def redirection : Nat → String → Nat → Reader Redirect
  | 0, _, _ => tooDeep
  | n + 1, op, fd => do
    let t ← token n false false
    match t with
    | .word w =>
      match op with
      | "<" => return .read fd w
      | ">" | ">|" => return .write fd w
      | ">>" => return .append fd w
      | "<>" => return .readWrite fd w
      | "<&" | ">&" => return .duplicate fd w
      | _ => do
        let (mark, literal) := markOf w
        let s ← get
        let index := s.nextDocument
        set { s with
          pending := s.pending ++ [Pending.mk index mark (op = "<<-") literal]
          nextDocument := index + 1 }
        return .document fd index
    | t => unexpected t ""

/-- Takes the redirections that follow a compound command. -/
def redirections : Nat → Command → Reader Command
  | 0, _ => tooDeep
  | n + 1, c => do
    let rs ← redirectionList n
    return if rs.isEmpty then c else .redirected c rs

/-- Takes redirections. -/
def redirectionList : Nat → Reader (List Redirect)
  | 0 => tooDeep
  | n + 1 => do
    let t ← token n false true
    match t with
    | .redirect op fd => do
      let r ← redirection n op fd
      return r :: (← redirectionList n)
    | t => do
      pushBack t
      return []

/-- Takes a simple command or the definition of a function; lists have their last item first. -/
def simple : Nat → Nat → List Word → List Word → List Redirect → Reader Command
  | 0, _, _, _, _ => tooDeep
  | n + 1, line, assigned, words, redirects => do
    let t ← token n false false
    match t with
    | .word w =>
      if words.isEmpty && isAssignment w then simple n line (w :: assigned) words redirects
      else simple n line assigned (w :: words) redirects
    | .redirect op fd => do
      let r ← redirection n op fd
      simple n line assigned words (r :: redirects)
    | .op "(" =>
      match words with
      | [w] =>
        if assigned.isEmpty && redirects.isEmpty then do
          match ← token n false false with
          | .op ")" => pure ()
          | t => unexpected t ")"
          match (plainText? w).filter fun s => isName s.toList && !specialBuiltins.contains s with
          | some name => do
            skipToCommand n
            let inner ← command n
            return .define name inner
          | none => complain "Bad function name"
        else unexpected t ""
      | _ => unexpected t ""
    | t => do
      pushBack t
      return .simple line assigned.reverse words.reverse redirects.reverse

end

/-- A bound on depth that no text of the given length reaches. -/
def bound (length : Nat) : Nat := 16 * length + 64

/-- What stands on the next line of a script. -/
inductive Line where
  | done
  | blank
  | commands (c : Command)

/-- Takes commands up to the end of a line. -/
def lineRest : Nat → Command → Reader Command
  | 0, _ => tooDeep
  | n + 1, before => do
    let t ← token n false false
    match t with
    | .newline | .endOfFile => do
      pushBack t
      return before
    | .op ";" | .op "&" => do
      let before := if t matches .op "&" then background before else before
      let next ← token n false true
      pushBack next
      match next with
      | .newline | .endOfFile => return before
      | _ => do
        let second ← andOr n
        lineRest n (.sequence before second)
    | t => unexpected t ""

/-- Takes the next line of a script with all commands on it. -/
def nextLine : Reader Line := do
  let n := bound (← get).rest.length
  let t ← token n false true
  match t with
  | .endOfFile => return .done
  | .newline => return .blank
  | t => do
    pushBack t
    let first ← andOr n
    let c ← lineRest n first
    let t ← token n false false
    match t with
    | .endOfFile => pushBack t
    | _ => pure ()
    return .commands c

end Reader

end Kiln.Shell
