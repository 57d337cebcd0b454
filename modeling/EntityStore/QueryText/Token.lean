import EntityStore.QueryError
import EntityStore.Text.Blank

/-!
# Tokens of query text

A query text is cut into tokens from left to right, each as long as it can be; spaces, tabs and
line ends between them are skipped. A token remembers its characters and the byte it begins at,
so that errors can point into the text and so that the bounds of a range can be told from two
numbers with a space between them.

The text is cut completely before anything is parsed. The first place where no token fits is
therefore reported before any fault of grammar, wherever that fault may be.
-/

namespace EntityStore.QueryText

open Text

inductive TokenKind
  | openParen
  | closeParen
  | colon
  | comma
  | tilde
  | dot
  /-- Only meaningful between the bounds of a range. -/
  | minus
  | number
  | quoted
  | url
  | word
  deriving DecidableEq, Repr

/-- A token with its characters and the byte it begins at. -/
structure Token where
  kind : TokenKind
  text : List Char
  start : Nat
  deriving DecidableEq, Repr

namespace Token

/-- The byte after the last one of the token. -/
def stop (t : Token) : Nat := t.start + byteLength t.text

/-- Whether the token is the given keyword, in any case. -/
def isKeyword (t : Token) (keyword : String) : Bool :=
  t.kind == .word && sameWord t.text keyword.toList

end Token

/-! ## How far a token reaches

Each function takes what follows the first character and counts how much of it belongs to the
token. -/

def isGap (c : Char) : Bool := c == ' ' || c == '\t' || c == '\r' || c == '\n'

def isWordStart (c : Char) : Bool := c.isAlpha

def isWordPart (c : Char) : Bool := c.isAlphanum || c == '_' || c == '-'

/-- Characters of an address: no blanks, no separators, no quotes and no parentheses. -/
def isUrlPart (c : Char) : Bool :=
  !(isBlank c || c == ',' || c == '~' || c == '(' || c == ')' || c == '"' || c == '\'')

def countWhile (p : Char → Bool) (cs : List Char) : Nat := (cs.takeWhile p).length

/-- A fraction: a point with at least one digit. -/
def fractionLength : List Char → Nat
  | '.' :: rest => if 0 < countWhile Char.isDigit rest then countWhile Char.isDigit rest + 1 else 0
  | _ => 0

/-- An exponent: the letter, an optional sign and at least one digit. -/
def exponentLength : List Char → Nat
  | e :: rest =>
    if e = 'e' ∨ e = 'E' then
      let sign := match rest with
        | s :: _ => if s = '+' ∨ s = '-' then 1 else 0
        | [] => 0
      let digits := countWhile Char.isDigit (rest.drop sign)
      if 0 < digits then 1 + sign + digits else 0
    else 0
  | [] => 0

/-- What follows the first digit of a number. -/
def numberLength (cs : List Char) : Nat :=
  let whole := countWhile Char.isDigit cs
  let fraction := fractionLength (cs.drop whole)
  whole + fraction + exponentLength (cs.drop (whole + fraction))

/-- What follows the opening quote: how many characters a quoted text can take, and whether it
ends properly. A backslash takes the next character with it, except a line end. -/
def quotedLength (quote : Char) : List Char → Nat × Bool
  | [] => (0, false)
  | c :: rest =>
    if c = quote then (1, true)
    else if c = '\\' then
      match rest with
      | [] => (1, false)
      | d :: rest =>
        if d = '\n' then (1, false)
        else ((quotedLength quote rest).1 + 2, (quotedLength quote rest).2)
    else ((quotedLength quote rest).1 + 1, (quotedLength quote rest).2)

/-- What follows the letter `h` of an address, when one begins there. -/
def urlLength? (cs : List Char) : Option Nat :=
  let afterScheme (scheme : Nat) : Option Nat :=
    let n := countWhile isUrlPart (cs.drop scheme)
    if 0 < n then some (scheme + n) else none
  if "ttp://".toList.isPrefixOf cs then afterScheme 6
  else if "ttps://".toList.isPrefixOf cs then afterScheme 7
  else none

/-- The kinds that are one character. -/
def punctuation? : Char → Option TokenKind
  | '(' => some .openParen
  | ')' => some .closeParen
  | ':' => some .colon
  | ',' => some .comma
  | '~' => some .tilde
  | '.' => some .dot
  | _ => none

/-- The kind of the token that begins with `c`, and how much of what follows belongs to it. When
there is none, how much of what follows is to blame. -/
def extent (c : Char) (rest : List Char) : Except Nat (TokenKind × Nat) :=
  match punctuation? c with
  | some kind => .ok (kind, 0)
  | none =>
    if c.isDigit then .ok (.number, numberLength rest)
    else if c = '-' then
      match rest with
      | d :: rest => if d.isDigit then .ok (.number, numberLength rest + 1) else .ok (.minus, 0)
      | [] => .ok (.minus, 0)
    else if c = '"' ∨ c = '\'' then
      match quotedLength c rest with
      | (n, true) => .ok (.quoted, n)
      | (n, false) => .error n
    else if isWordStart c then
      match (if c = 'h' then urlLength? rest else none) with
      | some n => .ok (.url, n)
      | none => .ok (.word, countWhile isWordPart rest)
    else .error 0

/-- Cut `cs`, which begins at byte `position`, into tokens. -/
def tokensFrom (position : Nat) (cs : List Char) : Except SyntaxError (List Token) :=
  match cs with
  | [] => .ok []
  | c :: rest =>
    if isGap c then tokensFrom (position + c.utf8Size) rest
    else
      match extent c rest with
      | .error n =>
        .error ⟨String.ofList (c :: rest.take n), position, .unexpectedCharacter, false⟩
      | .ok (kind, n) =>
        match tokensFrom (position + byteLength (c :: rest.take n)) (rest.drop n) with
        | .error e => .error e
        | .ok tokens => .ok (⟨kind, c :: rest.take n, position⟩ :: tokens)
termination_by cs.length
decreasing_by all_goals simp; try omega

/-- The tokens of a query text. -/
def tokens (input : String) : Except SyntaxError (List Token) := tokensFrom 0 input.toList

end EntityStore.QueryText
