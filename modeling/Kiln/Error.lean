import Kiln.Text.Printable

/-!
# Kiln.Error — what can go wrong, and how it is worded

Errors are causes; their wording is fixed once, in the `message` functions.  An `Error` that reaches
the user carries the location of one statement at most: `Error.locate` adds a location only where
there is none yet.
-/

namespace Kiln

/-! ## The operating system -/

/-- System errors by their number. -/
inductive Errno where
  | noEntry
  | accessDenied
  | busy
  | entryExists
  | notDirectory
  | isDirectory
  | invalidArgument
  | nameTooLong
  | notEmpty
  deriving DecidableEq, Repr

namespace Errno

/-- The system's number of an error. -/
def number : Errno → Nat
  | noEntry => 2
  | accessDenied => 13
  | busy => 16
  | entryExists => 17
  | notDirectory => 20
  | isDirectory => 21
  | invalidArgument => 22
  | nameTooLong => 36
  | notEmpty => 39

/-- The system's text for an error. -/
def text : Errno → String
  | noEntry => "No such file or directory"
  | accessDenied => "Permission denied"
  | busy => "Device or resource busy"
  | entryExists => "File exists"
  | notDirectory => "Not a directory"
  | isDirectory => "Is a directory"
  | invalidArgument => "Invalid argument"
  | nameTooLong => "File name too long"
  | notEmpty => "Directory not empty"

/-- An error with its number, as it is shown. -/
def message (e : Errno) : String :=
  e.text ++ " (os error " ++ toString e.number ++ ")"

end Errno

/-- A failed file or process operation. -/
inductive IoError where
  /-- Refused by the system. -/
  | os (code : Errno)
  /-- The file was to be read as text and is not UTF-8. -/
  | notText
  /-- A path with a NUL character in it. -/
  | nulInPath
  /-- A program name, argument or variable with a NUL character in it. -/
  | nulInArgument
  /-- A temporary file that could not be made at `path`. -/
  | scratchFile (code : Errno) (path : String)
  /-- A directory that could not be listed on the way through a tree. -/
  | listing (code : Errno) (path : String)
  /-- A file that could not be copied. -/
  | copyFile (source target : String)
  /-- A directory that was to replace a file. -/
  | copyDirectory (source target : String)
  /-- A command without a program name. -/
  | emptyCommand
  deriving DecidableEq, Repr

namespace IoError

/-- The text of an operation's failure. -/
def message : IoError → String
  | os code => code.message
  | notText => "stream did not contain valid UTF-8"
  | nulInPath => "file name contained an unexpected NUL byte"
  | nulInArgument => "nul byte found in provided data"
  | scratchFile code path => code.message ++ " at path " ++ Text.Printable.quote path
  | listing code path => "IO error for operation on " ++ path ++ ": " ++ code.message
  | copyFile source target => "Failed to copy " ++ source ++ " to " ++ target
  | copyDirectory source target => "Cannot copy directory " ++ source ++ " to " ++ target
  | emptyCommand => "empty command"

/-- Whether the system said that there is no such entry. -/
def isNoEntry : IoError → Bool
  | os .noEntry => true
  | _ => false

end IoError

/-! ## Scripts -/

/-- A line of a source text, counted from 1. -/
structure Location where
  file : String
  line : Nat
  deriving DecidableEq, Repr, Inhabited

/-- A location as it is shown, `file:line`. -/
def Location.text (l : Location) : String :=
  l.file ++ ":" ++ toString l.line

/-- Why a running script stopped. -/
inductive Fault where
  /-- The script asked to stop, with a text of its own. -/
  | stopped (text : String)
  | cannotSubscript
  | negativeIndex
  | notAssignable
  | divisionByZero
  /-- A name was to be entered twice in the function table. -/
  | nameTaken (name : String)
  /-- A call of a name that is not in the function table. -/
  | undefinedFunction (name : String)
  /-- A module was asked for a function it does not define. -/
  | notInModule (name : String)
  /-- A target asked for on the command line is not defined. -/
  | undefinedTarget (name : String)
  | argumentCount (name : String) (takes got : Nat)
  /-- A byte position outside a string, in a call of `builtin`. -/
  | positionOutOfRange (builtin : String) (position : Int)
  /-- A pattern whose regular expression was refused. -/
  | badPattern (pattern reason : String)
  | cannotOpen (path : String) (cause : IoError)
  | cannotRead (path : String) (cause : IoError)
  | cannotWrite (path : String) (cause : IoError)
  | cannotCopy (cause : IoError)
  | cannotChangeDirectory (argument : String)
  | emptyCommandLine
  | cannotStart (program : String) (cause : IoError)
  | commandFailed
  deriving DecidableEq, Repr

/-- The text of a fault. -/
def Fault.message : Fault → String
  | stopped text => text
  | cannotSubscript => "Cannot subscript"
  | negativeIndex => "Array index out of range"
  | notAssignable => "Expression is not an lvalue"
  | divisionByZero => "Division by zero"
  | nameTaken name => "Function name conflict: " ++ name
  | undefinedFunction name => "Function does not exist: " ++ name
  | notInModule name => "No such function: " ++ name
  | undefinedTarget name => "Target " ++ name ++ " is not defined."
  | argumentCount name takes got =>
    "Invalid number of arguments: " ++ name ++ "() takes " ++ toString takes ++ ", got " ++
      toString got
  | positionOutOfRange builtin position =>
    builtin ++ "(): position " ++ toString position ++ " out of range"
  | badPattern pattern reason => "Bad pattern " ++ Text.Printable.quote pattern ++ ": " ++ reason
  | cannotOpen path cause => "Cannot open " ++ path ++ ": " ++ cause.message
  | cannotRead path cause => "Cannot read " ++ path ++ ": " ++ cause.message
  | cannotWrite path cause => "Cannot write " ++ path ++ ": " ++ cause.message
  | cannotCopy cause => cause.message
  | cannotChangeDirectory argument => "Failed to cd(" ++ argument ++ ")"
  | emptyCommandLine => "Command exec failed: empty command line"
  | cannotStart program cause => "Command exec failed: " ++ program ++ ": " ++ cause.message
  | commandFailed => "Command exec failed"

/-- Any error of reading or running a script. -/
inductive Error where
  /-- A character no token starts with. -/
  | badCharacter (location : Location) (char : Char)
  /-- A token the grammar does not allow here, and what was wanted. -/
  | badToken (location : Location) (complaint got : String)
  | fault (cause : Fault)
  | io (cause : IoError)
  /-- An error together with the statement that raised it. -/
  | located (location : Location) (cause : Error)
  deriving DecidableEq, Repr

namespace Error

/-- The text of an error. -/
def message : Error → String
  | badCharacter location char =>
    "[" ++ location.text ++ "]: Syntax error (got '" ++ String.singleton char ++ "')"
  | badToken location complaint got =>
    "[" ++ location.text ++ "]: " ++ complaint ++ " (got '" ++ got ++ "')"
  | fault cause => cause.message
  | io cause => cause.message
  | located location cause => "[" ++ location.text ++ "]: " ++ cause.message

/-- Adds the location of a statement to an error that has none. -/
def locate (location : Location) : Error → Error
  | located l e => located l e
  | e => located location e

/-- The error without statement locations. -/
def root : Error → Error
  | located _ e => e.root
  | e => e

end Error

end Kiln
