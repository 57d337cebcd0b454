import EntityStore.Filter.Basic
import EntityStore.Order.Basic
import EntityStore.QueryText.Token
import EntityStore.Timestamp.Reader
import EntityStore.Binary64.Text

/-!
# Reading query text

The tree of a filter as it is written: criteria joined by `~` or `and`, which bind tighter, and by
`or`, with parentheses around groups.

    criterion := path ":" operator ":" values
    path      := word ("." word)*
    values    := [literal] ("," [literal])*
    literal   := number | number "-" number | quoted | url | true | false | null

Separators may be repeated and stand at either end, and groups and value slots may be empty;
none of these leave a trace in the tree. The reader goes through the tokens once and keeps a
stack of the groups that are still open.
-/

namespace EntityStore.QueryText

open Text

/-- A literal as written. -/
inductive Literal
  | value (v : Value)
  | range (low high : Value)
  deriving DecidableEq

def Literal.same : Literal → Literal → Bool
  | .value a, .value b => a.same b
  | .range a b, .range c d => a.same c && b.same d
  | _, _ => false

/-- A criterion as written. -/
structure RawCriterion where
  path : List String
  operator : String
  values : List Literal
  /-- The byte the criterion begins at. -/
  position : Nat
  deriving DecidableEq

/-- A filter as written. -/
inductive FilterExpr
  | criterion (c : RawCriterion)
  | and (terms : List FilterExpr)
  | or (branches : List FilterExpr)
  deriving Inhabited

/-! ## Errors at a token -/

/-- The fault `fault` at the next token, or at the end of a text of `size` bytes. -/
def errorAt (size : Nat) (fault : SyntaxFault) : List Token → SyntaxError
  | t :: _ => ⟨String.ofList t.text, t.start, fault, false⟩
  | [] => ⟨"", size, fault, true⟩

/-- A token of the given kind, and what follows it. -/
def expect (size : Nat) (kind : TokenKind) (what : Expected) (ts : List Token) :
    Except SyntaxError (Token × List Token) :=
  match ts with
  | t :: rest => if t.kind = kind then .ok (t, rest) else .error (errorAt size (.expected what) ts)
  | [] => .error (errorAt size (.expected what) [])

/-! ## Literals -/

/-- A number: a float when it has a point or an exponent, else an integer of 64 bits. -/
def readNumber (text : List Char) (position : Nat) : Except SyntaxError Value :=
  if text.any fun c => c == '.' || c == 'e' || c == 'E' then
    match Binary64.ofText? text with
    | some x => .ok (.float x)
    | none => .error ⟨String.ofList text, position, .invalidNumber, false⟩
  else
    match readInt64 text with
    | .ok i => .ok (.int i)
    | .error fault => .error ⟨String.ofList text, position, .invalidInteger fault, false⟩

/-- The characters of a quoted text: each backslash stands for the character after it. -/
def unescape : List Char → List Char
  | [] => []
  | '\\' :: c :: rest => c :: unescape rest
  | ['\\'] => []
  | c :: rest => c :: unescape rest

/-- A quoted text without its quotes. -/
def unquote (text : List Char) : List Char := unescape text.tail.dropLast

def looksLikeUrl (cs : List Char) : Bool :=
  "http://".toList.isPrefixOf cs || "https://".toList.isPrefixOf cs

/-- A quoted text is a timestamp when it reads as one, an address when it begins like one, and a
string otherwise. -/
def classify (cs : List Char) : Value :=
  match Timestamp.ofLiteral? cs with
  | some t => .timestamp t
  | none => if looksLikeUrl cs then .url (String.ofList cs) else .string (String.ofList cs)

/-- The upper bound after a number that ends at byte `stop`, and how many tokens it takes. The
minus sign has to follow without a gap. In `1-5` it is part of the second number; in `-3--5` it
is a token of its own. -/
def readRangeEnd (stop : Nat) : List Token → Except SyntaxError (Option (Value × Nat))
  | [] => .ok none
  | t :: rest =>
    if t.start ≠ stop then .ok none
    else if t.kind = .number then
      match t.text with
      | '-' :: digits => (readNumber digits (t.start + 1)).map fun high => some (high, 1)
      | _ => .ok none
    else if t.kind = .minus then
      match rest with
      | u :: _ =>
        if u.kind = .number ∧ u.start = t.stop then
          (readNumber u.text u.start).map fun high => some (high, 2)
        else .error ⟨"-", t.start, .rangeWithoutEnd, false⟩
      | [] => .error ⟨"-", t.start, .rangeWithoutEnd, false⟩
    else .ok none

/-- The literal a token begins, and how many tokens after it belong to it. -/
def readLiteral (t : Token) (rest : List Token) : Except SyntaxError (Literal × Nat) :=
  match t.kind with
  | .number =>
    match readNumber t.text t.start with
    | .error e => .error e
    | .ok low =>
      match readRangeEnd t.stop rest with
      | .error e => .error e
      | .ok none => .ok (.value low, 0)
      | .ok (some (high, n)) => .ok (.range low high, n)
  | .quoted => .ok (.value (classify (unquote t.text)), 0)
  | .url => .ok (.value (.url (String.ofList t.text)), 0)
  | _ =>
    if sameWord t.text "true".toList then .ok (.value (.bool true), 0)
    else if sameWord t.text "false".toList then .ok (.value (.bool false), 0)
    else .ok (.value .null, 0)

/-- Whether a literal begins with the token. -/
def startsLiteral (t : Token) : Bool :=
  match t.kind with
  | .number => true
  | .quoted => true
  | .url => true
  | .word => t.isKeyword "true" || t.isKeyword "false" || t.isKeyword "null"
  | _ => false

/-- A list of literals; `expecting` says whether one may come next. A second literal without a
comma between ends the list. -/
def readValues (expecting : Bool) (ts : List Token) :
    Except SyntaxError (List Literal × List Token) :=
  match ts with
  | [] => .ok ([], [])
  | t :: rest =>
    if t.kind = .comma then readValues true rest
    else if expecting && startsLiteral t then
      match readLiteral t rest with
      | .error e => .error e
      | .ok (literal, n) =>
        match readValues false (rest.drop n) with
        | .error e => .error e
        | .ok (literals, rest) => .ok (literal :: literals, rest)
    else .ok ([], ts)
termination_by ts.length
decreasing_by all_goals simp; try omega

theorem length_of_readValues {expecting : Bool} {ts rest : List Token} {vs : List Literal}
    (h : readValues expecting ts = .ok (vs, rest)) : rest.length ≤ ts.length := by
  fun_induction readValues expecting ts generalizing vs rest with
  | case1 => simp_all
  | case2 _ _ _ _ ih => have := ih h; simp; omega
  | case3 => simp at h
  | case4 => simp at h
  | case5 _ t ts' _ _ lit n _ lits r' hr ih =>
    obtain ⟨-, rfl⟩ : _ ∧ r' = rest := by simpa using h
    have := ih hr
    simp at this ⊢
    omega
  | case6 => simp_all

/-! ## Criteria -/

/-- The segments after the first one of a path. -/
def readPathRest (size : Nat) (ts : List Token) :
    Except SyntaxError (List String × List Token) :=
  match ts with
  | t :: rest =>
    if t.kind = .dot then
      match rest with
      | w :: rest' =>
        if w.kind = .word then
          match readPathRest size rest' with
          | .error e => .error e
          | .ok (segments, rest) => .ok (String.ofList w.text :: segments, rest)
        else .error (errorAt size (.expected .attributeNameAfterDot) rest)
      | [] => .error (errorAt size (.expected .attributeNameAfterDot) [])
    else .ok ([], ts)
  | [] => .ok ([], [])

theorem length_of_readPathRest {size : Nat} {ts rest : List Token} {segments : List String}
    (h : readPathRest size ts = .ok (segments, rest)) : rest.length ≤ ts.length := by
  fun_induction readPathRest size ts generalizing segments rest with
  | case1 => simp at h
  | case2 t hd w r' hw s r'' hr ih =>
    obtain ⟨-, rfl⟩ : _ ∧ r'' = rest := by simpa using h
    have := ih hr
    simp
    omega
  | case3 => simp at h
  | case4 => simp at h
  | case5 => simp_all
  | case6 => simp_all

theorem length_of_expect {size : Nat} {kind : TokenKind} {what : Expected} {t : Token}
    {ts rest : List Token} (h : expect size kind what ts = .ok (t, rest)) :
    rest.length < ts.length := by
  unfold expect at h
  split at h
  · split at h
    · simp at h; simp [h.2]
    · simp at h
  · simp at h

/-- The criterion whose path begins with the word `w`. -/
def readCriterion (size : Nat) (w : Token) (ts : List Token) :
    Except SyntaxError (RawCriterion × List Token) :=
  match readPathRest size ts with
  | .error e => .error e
  | .ok (segments, ts) =>
    match expect size .colon .colonAfterPath ts with
    | .error e => .error e
    | .ok (_, ts) =>
      match expect size .word .operatorName ts with
      | .error e => .error e
      | .ok (operator, ts) =>
        match expect size .colon .colonAfterOperator ts with
        | .error e => .error e
        | .ok (_, ts) =>
          match readValues true ts with
          | .error e => .error e
          | .ok (values, ts) =>
            .ok (⟨String.ofList w.text :: segments, String.ofList operator.text, values, w.start⟩,
              ts)

theorem length_of_readCriterion {size : Nat} {w : Token} {ts rest : List Token} {c : RawCriterion}
    (h : readCriterion size w ts = .ok (c, rest)) : rest.length ≤ ts.length := by
  unfold readCriterion at h
  split at h
  · simp at h
  · rename_i h1
    split at h
    · simp at h
    · rename_i h2
      split at h
      · simp at h
      · rename_i h3
        split at h
        · simp at h
        · rename_i h4
          split at h
          · simp at h
          · rename_i h5
            have h1 := length_of_readPathRest h1
            have h2 := length_of_expect h2
            have h3 := length_of_expect h3
            have h4 := length_of_expect h4
            have h5 := length_of_readValues h5
            simp at h
            rw [← h.2]
            omega

/-! ## Groups -/

/-- Terms joined by `wrap`, unless there is one or none. -/
def joined? (wrap : List FilterExpr → FilterExpr) : List FilterExpr → Option FilterExpr
  | [] => none
  | [only] => some only
  | terms => some (wrap terms)

/-- A group that is still open: its finished branches, the terms of the branch that is being
read, and whether a term may come next. -/
structure Group where
  branches : List FilterExpr
  terms : List FilterExpr
  separated : Bool

namespace Group

def empty : Group := ⟨[], [], true⟩

/-- A separator lets the next term begin. -/
def separate (g : Group) : Group := { g with separated := true }

/-- A term, or an empty group in the place of one. -/
def addTerm (g : Group) (term : Option FilterExpr) : Group :=
  { g with terms := g.terms ++ term.toList, separated := false }

/-- The word `or` ends the branch. -/
def endBranch (g : Group) : Group :=
  ⟨g.branches ++ (joined? .and g.terms).toList, [], true⟩

/-- What the group amounts to when it is closed. -/
def result (g : Group) : Option FilterExpr := joined? .or g.endBranch.branches

end Group

/-- Read terms and separators into the innermost open group; `outer` are the groups around it. -/
def readGroups (size : Nat) (outer : List Group) (group : Group) (ts : List Token) :
    Except SyntaxError (Option FilterExpr) :=
  match ts with
  | [] =>
    match outer with
    | [] => .ok group.result
    | _ :: _ => .error (errorAt size (.expected .closingParenthesis) [])
  | t :: rest =>
    if t.kind = .tilde || t.isKeyword "and" then readGroups size outer group.separate rest
    else if t.isKeyword "or" then readGroups size outer group.endBranch rest
    else if t.kind = .openParen then
      if group.separated then readGroups size (group :: outer) .empty rest
      else .error (errorAt size .missingSeparator ts)
    else if t.kind = .word then
      if group.separated then
        match h : readCriterion size t rest with
        | .error e => .error e
        | .ok (c, rest') =>
          have := length_of_readCriterion h
          readGroups size outer (group.addTerm (some (.criterion c))) rest'
      else .error (errorAt size .missingSeparator ts)
    else
      match outer with
      | [] => .error (errorAt size .trailingInput ts)
      | parent :: outer =>
        if t.kind = .closeParen then readGroups size outer (parent.addTerm group.result) rest
        else .error (errorAt size (.expected .closingParenthesis) ts)
termination_by ts.length
decreasing_by all_goals simp; try omega

/-- Read a filter as it is written. -/
def readFilter (input : String) : Except SyntaxError FilterExpr :=
  match tokens input with
  | .error e => .error e
  | .ok ts =>
    match readGroups (byteLength input.toList) [] .empty ts with
    | .error e => .error e
    | .ok (some expr) => .ok expr
    | .ok none => .error ⟨input, 0, .noFilterCriteria, false⟩

/-! ## Orders -/

/-- The attribute path of written segments: hyphens stand for underscores. -/
def attributePath (segments : List String) : String :=
  ".".intercalate (segments.map fun s =>
    String.ofList (s.toList.map fun c => if c = '-' then '_' else c))

/-- The sort key whose path begins with the word `w`. -/
def readOrderKey (size : Nat) (w : Token) (ts : List Token) :
    Except SyntaxError (OrderKey × List Token) :=
  match readPathRest size ts with
  | .error e => .error e
  | .ok (segments, ts) =>
    match expect size .colon .colonAfterPath ts with
    | .error e => .error e
    | .ok (_, ts) =>
      match expect size .word .sortDirection ts with
      | .error e => .error e
      | .ok (word, ts) =>
        let path := attributePath (String.ofList w.text :: segments)
        if sameWord word.text "asc".toList then .ok (⟨path, .asc⟩, ts)
        else if sameWord word.text "desc".toList then .ok (⟨path, .desc⟩, ts)
        else .error ⟨String.ofList word.text, word.start, .noDirection, false⟩

theorem length_of_readOrderKey {size : Nat} {w : Token} {ts rest : List Token} {k : OrderKey}
    (h : readOrderKey size w ts = .ok (k, rest)) : rest.length ≤ ts.length := by
  unfold readOrderKey at h
  split at h
  · simp at h
  · rename_i h1
    split at h
    · simp at h
    · rename_i h2
      split at h
      · simp at h
      · rename_i h3
        have h1 := length_of_readPathRest h1
        have h2 := length_of_expect h2
        have h3 := length_of_expect h3
        split at h
        · simp at h
          rw [← h.2]
          omega
        · split at h
          · simp at h
            rw [← h.2]
            omega
          · simp at h

/-- Sort keys with `~` between them; `separated` says whether one may come next. -/
def readOrderKeys (size : Nat) (separated : Bool) (ts : List Token) :
    Except SyntaxError (List OrderKey) :=
  match ts with
  | [] => .ok []
  | t :: rest =>
    if t.kind = .tilde then readOrderKeys size true rest
    else if t.kind = .word ∧ separated = true then
      match h : readOrderKey size t rest with
      | .error e => .error e
      | .ok (k, rest') =>
        have := length_of_readOrderKey h
        match readOrderKeys size false rest' with
        | .error e => .error e
        | .ok keys => .ok (k :: keys)
    else .error (errorAt size .noOrderCriterion ts)
termination_by ts.length
decreasing_by all_goals simp; try omega

/-- Read an order. -/
def readOrder (input : String) : Except SyntaxError OrderSpec :=
  match tokens input with
  | .error e => .error e
  | .ok ts =>
    match readOrderKeys (byteLength input.toList) true ts with
    | .error e => .error e
    | .ok [] => .error ⟨input, 0, .noOrderCriteria, false⟩
    | .ok keys => .ok (.all (keys.map .key))

end EntityStore.QueryText
