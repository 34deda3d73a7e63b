/-!
# Kiln.Text.Glob — file name patterns

In a pattern `*` takes any run of characters, `?` takes one, a backslash makes the next character
stand for itself, and every other character takes itself.  A backslash at the end takes nothing and
never matches.  A pattern is matched by way of a regular expression for the same whole texts.
-/

namespace Kiln.Text.Glob

/-- The expression of a pattern between its anchors; `escape` quotes a character. -/
def body (escape : String → String) : List Char → List Char
  | [] => []
  | '*' :: rest => '.' :: '*' :: body escape rest
  | '?' :: rest => '.' :: body escape rest
  | ['\\'] => ['[', '^', '\\', 's', '\\', 'S', ']']
  | '\\' :: c :: rest => (escape (String.singleton c)).toList ++ body escape rest
  | c :: rest => (escape (String.singleton c)).toList ++ body escape rest

/-- The regular expression of a pattern.  Any character counts as one, a line feed too, and the whole
text must match. -/
def expression (escape : String → String) (pattern : String) : String :=
  String.ofList ("(?s)^".toList ++ body escape pattern.toList ++ ['$'])

end Kiln.Text.Glob
