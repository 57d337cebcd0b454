/-!
# LIKE patterns

In a pattern `%` stands for any text, `_` for any one character, and a backslash takes away the
meaning of the character after it. Escaping a text makes it a pattern that matches only itself.
-/

namespace EntityStore.Pattern

/-- Whether a character has a meaning of its own in a pattern. -/
def isSpecial (c : Char) : Bool := c == '\\' || c == '%' || c == '_'

/-- A pattern that matches the text and nothing else. -/
def escape : List Char → List Char
  | [] => []
  | c :: rest => if isSpecial c then '\\' :: c :: escape rest else c :: escape rest

def escapeText (s : String) : String := String.ofList (escape s.toList)

/-- The ends of a text, the whole text first. -/
def suffixes : List Char → List (List Char)
  | [] => [[]]
  | c :: rest => (c :: rest) :: suffixes rest

/-- Whether a text matches a pattern. A backslash at the very end matches nothing. -/
def accepts : List Char → List Char → Bool
  | [], text => text.isEmpty
  | ['\\'], _ => false
  | '\\' :: c :: pattern, text =>
    match text with
    | d :: text => c == d && accepts pattern text
    | [] => false
  | '%' :: pattern, text => (suffixes text).any fun rest => accepts pattern rest
  | '_' :: pattern, text =>
    match text with
    | _ :: text => accepts pattern text
    | [] => false
  | c :: pattern, text =>
    match text with
    | d :: text => c == d && accepts pattern text
    | [] => false

end EntityStore.Pattern
