/-!
# Kiln.Builtin — the functions every script can call

The catalogue: which names are built in, and how many arguments each takes.  What they do is in
`Kiln.Call`.
-/

namespace Kiln

/-- A built-in function. -/
inductive Builtin where
  | strlen
  | length
  | replace
  | print
  | println
  | files
  | matching
  | excluding
  | readFile
  | writeFile
  | run
  | capture
  | fileExists
  | absPath
  | relPath
  | dirName
  | fileName
  | cd
  | cwd
  | contains
  | implode
  | explode
  | mkdir
  /-- Runs another build file. -/
  | subrun
  | fail
  | substr
  | chr
  | ord
  | sep
  | charAt
  | hex
  | delete
  | copy
  deriving DecidableEq, Repr

/-- How many arguments a function takes. -/
inductive Arity where
  | exactly (n : Nat)
  | between (low high : Nat)
  | atLeast (n : Nat)
  | any
  deriving DecidableEq, Repr

namespace Arity

/-- Whether a call may have `n` arguments. -/
def admits : Arity → Nat → Bool
  | exactly k, n => n = k
  | between low high, n => low ≤ n && n ≤ high
  | atLeast k, n => k ≤ n
  | any, _ => true

/-- `n` parameters, in words. -/
def parameters (n : Nat) : String :=
  toString n ++ (if n = 1 then " parameter" else " parameters")

/-- What a function with this arity expects, in words. -/
def expected : Arity → String
  | exactly k => parameters k
  | between 0 high => "at most " ++ parameters high
  | between low high => toString low ++ " or " ++ toString high ++ " parameters"
  | atLeast k => "at least " ++ parameters k
  | any => "any parameters"

end Arity

namespace Builtin

/-- Every built-in function. -/
def all : List Builtin :=
  [strlen, length, replace, print, println, files, matching, excluding, readFile, writeFile, run,
    capture, fileExists, absPath, relPath, dirName, fileName, cd, cwd, contains, implode, explode,
    mkdir, subrun, fail, substr, chr, ord, sep, charAt, hex, delete, copy]

/-- The name scripts call it by. -/
def name : Builtin → String
  | strlen => "strlen"
  | length => "length"
  | replace => "replace"
  | print => "print"
  | println => "println"
  | files => "files"
  | matching => "match"
  | excluding => "exclude"
  | readFile => "readfile"
  | writeFile => "writefile"
  | run => "run"
  | capture => "capture"
  | fileExists => "exists"
  | absPath => "abspath"
  | relPath => "relpath"
  | dirName => "dirname"
  | fileName => "filename"
  | cd => "cd"
  | cwd => "cwd"
  | contains => "contains"
  | implode => "implode"
  | explode => "explode"
  | mkdir => "mkdir"
  | subrun => "lick"
  | fail => "fail"
  | substr => "substr"
  | chr => "chr"
  | ord => "ord"
  | sep => "sep"
  | charAt => "char_at"
  | hex => "hex"
  | delete => "delete"
  | copy => "copy"

/-- How many arguments it takes. -/
def arity : Builtin → Arity
  | cwd => .exactly 0
  | strlen | length | files | readFile | fileExists | absPath | dirName | fileName | cd | mkdir | fail
  | chr | ord => .exactly 1
  | writeFile | contains | charAt => .exactly 2
  | replace => .exactly 3
  | sep => .between 0 1
  | relPath | implode | explode | hex => .between 1 2
  | substr => .between 2 3
  | run | capture | subrun | delete => .atLeast 1
  | matching | excluding | copy => .atLeast 2
  | print | println => .any

/-- The built-in function of a name. -/
def ofName? (text : String) : Option Builtin :=
  all.find? fun b => b.name = text

/-- The complaint about a call with `n` arguments, if it may not have so many. -/
def arityComplaint? (b : Builtin) (n : Nat) : Option String :=
  if b.arity.admits n then none else some (b.name ++ "() expects " ++ b.arity.expected)

end Builtin

end Kiln
