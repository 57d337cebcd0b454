import EntityStore.Proofs.Json.Numerals
import EntityStore.Proofs.Json.Strings

/-!
# Space behind a document

A reader stops where a value ends, and what is left of the text has to be space. So a document that
has space put behind it is read as it was, and a text that is no document does not become one. Both
are said at once of every part of the reader: what it makes of a text and of the same text with space
behind it differs in that space alone.

The parts are first taken apart into what they share: a list of elements goes on with a comma or ends
with its bracket, and wherever space may stand it is the next character after it that decides.
-/

namespace EntityStore.Json

/-- Nothing but space. -/
def Spaces (cs : List Char) : Prop := ∀ c ∈ cs, isSpace c = true

theorem Spaces.endsNumeral {rest : List Char} (h : Spaces rest) : EndsNumeral rest := by
  intro c hc
  have hspace := h c (List.mem_of_head? hc)
  by_contra hnumeral
  rw [isSpace_of_isNumeralChar (by simpa using hnumeral)] at hspace
  cases hspace

theorem Spaces.skipSpace_eq {rest : List Char} (h : Spaces rest) : skipSpace rest = [] :=
  List.dropWhile_eq_nil_iff.mpr h

theorem skipSpace_append {rest : List Char} (hrest : Spaces rest) (cs : List Char) :
    skipSpace (cs ++ rest) = if skipSpace cs = [] then [] else skipSpace cs ++ rest := by
  induction cs with
  | nil => exact hrest.skipSpace_eq
  | cons c cs ih =>
    by_cases hc : isSpace c = true
    · have hskip : ∀ cs, skipSpace (c :: cs) = skipSpace cs := fun cs => List.dropWhile_cons_of_pos hc
      rw [List.cons_append, hskip, hskip, ih]
    · have hc : isSpace c = false := by simpa using hc
      rw [List.cons_append, skipSpace_cons hc, skipSpace_cons hc, if_neg (List.cons_ne_nil _ _)]
      rfl

theorem length_skipSpace_le (cs : List Char) : (skipSpace cs).length ≤ cs.length :=
  (List.dropWhile_suffix _).length_le

/-! ## What follows what is read -/

/-- Of a text and of the same text with more behind it, the same has been read, and no more is left of
the shorter one than the bound. -/
structure Carries {α : Type} (rest : List Char) (bound : Nat)
    (found found' : Option (α × List Char)) : Prop where
  eq : found' = found.map (followedBy rest)
  le : ∀ a r, found = some (a, r) → r.length ≤ bound

namespace Carries

variable {α β : Type} {rest : List Char} {bound : Nat} {found found' : Option (α × List Char)}

theorem of_none : Carries (α := α) rest bound none none := ⟨rfl, nofun⟩

theorem of_some {r : List Char} (a : α) (hr : r.length ≤ bound) :
    Carries rest bound (some (a, r)) (some (a, r ++ rest)) := by
  refine ⟨rfl, ?_⟩
  intro b r' heq
  obtain ⟨-, rfl⟩ := Prod.mk.inj (Option.some.inj heq)
  exact hr

theorem mono {bound' : Nat} (h : Carries rest bound found found') (hle : bound ≤ bound') :
    Carries rest bound' found found' :=
  ⟨h.eq, fun a r hr => (h.le a r hr).trans hle⟩

theorem bind {bound' : Nat} (h : Carries rest bound found found')
    {k k' : α × List Char → Option (β × List Char)}
    (hk : ∀ a r, r.length ≤ bound → Carries rest bound' (k (a, r)) (k' (a, r ++ rest))) :
    Carries rest bound' (found.bind k) (found'.bind k') := by
  obtain ⟨heq, hle⟩ := h
  subst heq
  cases found with
  | none => exact of_none
  | some read => exact hk read.1 read.2 (hle read.1 read.2 rfl)

theorem map (h : Carries rest bound found found') (f : α → β) :
    Carries rest bound (found.map fun (a, r) => (f a, r)) (found'.map fun (a, r) => (f a, r)) := by
  rw [Option.map_eq_bind, Option.map_eq_bind]
  exact h.bind fun a r hr => of_some (f a) hr

theorem ite {p : Prop} [Decidable p] {other other' : Option (α × List Char)}
    (h : p → Carries rest bound found found') (hnot : ¬ p → Carries rest bound other other') :
    Carries rest bound (if p then found else other) (if p then found' else other') := by
  split
  · next hp => exact h hp
  · next hp => exact hnot hp

end Carries

/-! ## Strings and names -/

section Words

variable {rest : List Char}

/-- The code unit that four digits stand for. -/
def unitOf? (a b c d : Char) : Option Nat := do
  let a ← hexDigit? a
  let b ← hexDigit? b
  let c ← hexDigit? c
  let d ← hexDigit? d
  some (((a * 16 + b) * 16 + c) * 16 + d)

theorem readPieces?_unit (a b c d : Char) (cs : List Char) :
    readPieces? ('\\' :: 'u' :: a :: b :: c :: d :: cs) = (unitOf? a b c d).bind fun code =>
      (readPieces? cs).map fun (pieces, r) => (.unit code :: pieces, r) := by
  rw [readPieces?, unitOf?]
  cases hexDigit? a <;> cases hexDigit? b <;> cases hexDigit? c <;> cases hexDigit? d <;>
    cases readPieces? cs <;> rfl

theorem shortEscape?_of_space {c : Char} (hc : isSpace c = true) : shortEscape? c = none := by
  simp only [isSpace, Bool.or_eq_true, beq_iff_eq] at hc
  obtain ((rfl | rfl) | rfl) | rfl := hc <;> rfl

theorem unitOf?_of_space {a b c d : Char}
    (h : isSpace a = true ∨ isSpace b = true ∨ isSpace c = true ∨ isSpace d = true) :
    unitOf? a b c d = none := by
  have hdigit : ∀ {c : Char}, isSpace c = true → hexDigit? c = none := by
    intro c hc
    simp only [isSpace, Bool.or_eq_true, beq_iff_eq] at hc
    obtain ((rfl | rfl) | rfl) | rfl := hc <;> rfl
  rw [unitOf?]
  obtain h | h | h | h := h
  · rw [hdigit h]
    rfl
  · rw [hdigit h]
    cases hexDigit? a <;> rfl
  · rw [hdigit h]
    cases hexDigit? a <;> cases hexDigit? b <;> rfl
  · rw [hdigit h]
    cases hexDigit? a <;> cases hexDigit? b <;> cases hexDigit? c <;> rfl

/-- A code unit that breaks off is not read, and no space completes it. -/
theorem readPieces?_unit_broken (hrest : Spaces rest) {cs : List Char} (hcs : cs.length < 4) :
    readPieces? ('\\' :: 'u' :: (cs ++ rest)) = none := by
  by_cases hlong : ∃ a b c d r, cs ++ rest = a :: b :: c :: d :: r
  · obtain ⟨a, b, c, d, r, heq⟩ := hlong
    have hspace : isSpace a = true ∨ isSpace b = true ∨ isSpace c = true ∨ isSpace d = true := by
      have hmem : ∀ n e, cs.length ≤ n → (cs ++ rest)[n]? = some e → isSpace e = true := by
        intro n e hn he
        rw [List.getElem?_append_right hn] at he
        exact hrest e (List.mem_of_getElem? he)
      -- the first of the digits that are missing
      obtain hn | hn | hn | hn : cs.length = 0 ∨ cs.length = 1 ∨ cs.length = 2 ∨ cs.length = 3 := by
        omega
      · exact .inl (hmem 0 a hn.le (by rw [heq]; rfl))
      · exact .inr (.inl (hmem 1 b hn.le (by rw [heq]; rfl)))
      · exact .inr (.inr (.inl (hmem 2 c hn.le (by rw [heq]; rfl))))
      · exact .inr (.inr (.inr (hmem 3 d hn.le (by rw [heq]; rfl))))
    rw [heq, readPieces?_unit, unitOf?_of_space hspace]
    rfl
  · rw [readPieces?]
    · rfl
    · intro a b c d r _ heq
      exact hlong ⟨a, b, c, d, r, heq⟩

theorem readPieces?_spaces (hrest : Spaces rest) : readPieces? rest = none := by
  induction rest with
  | nil => rfl
  | cons c rest ih =>
    obtain ⟨hc, hrest⟩ := List.forall_mem_cons.mp hrest
    have hquote : c ≠ '"' := by
      rintro rfl
      cases hc
    have hslash : c ≠ '\\' := by
      rintro rfl
      cases hc
    rw [readPieces?_plain hquote hslash, ih hrest]
    split <;> rfl

theorem readPieces?_backslash_spaces (hrest : Spaces rest) : readPieces? ('\\' :: rest) = none := by
  cases rest with
  | nil => rfl
  | cons e rest =>
    obtain ⟨he, -⟩ := List.forall_mem_cons.mp hrest
    rw [readPieces?_escape (by rintro rfl; cases he), shortEscape?_of_space he]
    rfl

theorem readPieces?_carries (hrest : Spaces rest) (cs : List Char) :
    Carries rest cs.length (readPieces? cs) (readPieces? (cs ++ rest)) := by
  induction cs using readPieces?.induct with
  | case1 =>
    rw [List.nil_append, readPieces?_spaces hrest]
    exact .of_none
  | case2 cs => exact .of_some [] (by simp)
  | case3 a b c d cs ih =>
    simp only [List.cons_append]
    rw [readPieces?_unit, readPieces?_unit]
    cases unitOf? a b c d with
    | none => exact .of_none
    | some code =>
      refine (ih.mono ?_).map (.unit code :: ·)
      simp only [List.length_cons]
      omega
  | case4 e cs hunit ih =>
    simp only [List.cons_append]
    by_cases he : e = 'u'
    · -- the digits of a code unit, and fewer than four of them
      have hshort : cs.length < 4 := by
        match cs, hunit with
        | [], _ | [_], _ | [_, _], _ | [_, _, _], _ => simp
        | a :: b :: c :: d :: r, hunit => exact absurd rfl (hunit a b c d r he)
      have hnospace : Spaces [] := nofun
      have hnone := readPieces?_unit_broken hnospace hshort
      rw [List.append_nil] at hnone
      rw [he, readPieces?_unit_broken hrest hshort, hnone]
      exact .of_none
    · rw [readPieces?_escape he, readPieces?_escape he]
      cases shortEscape? e with
      | none => exact .of_none
      | some c =>
        refine (ih.mono ?_).map (.char c :: ·)
        simp only [List.length_cons]
        omega
  | case5 c cs hquote _ hslash hbad =>
    by_cases hc : c = '\\'
    · -- a backslash at the end
      subst hc
      obtain rfl : cs = [] := by
        cases cs with
        | nil => rfl
        | cons e cs => exact absurd rfl (hslash e cs rfl)
      rw [List.singleton_append, readPieces?_backslash_spaces hrest]
      exact .of_none
    · rw [List.cons_append, readPieces?_plain hquote hc, readPieces?_plain hquote hc,
        if_pos (hbad.resolve_right hc), if_pos (hbad.resolve_right hc)]
      exact .of_none
  | case6 c cs hquote _ _ hfine ih =>
    rw [not_or] at hfine
    rw [List.cons_append, readPieces?_plain hquote hfine.2, readPieces?_plain hquote hfine.2,
      if_neg hfine.1, if_neg hfine.1]
    refine (ih.mono ?_).map (.char c :: ·)
    exact Nat.le_succ _

theorem dropWord?_carries {word : List Char} (hword : word.any isSpace = false)
    (hrest : Spaces rest) {α : Type} (a : α) (cs : List Char) :
    Carries rest cs.length ((dropWord? word cs).map (a, ·))
      ((dropWord? word (cs ++ rest)).map (a, ·)) := by
  have hprefix : word.isPrefixOf (cs ++ rest) = word.isPrefixOf cs := by
    rw [Bool.eq_iff_iff, List.isPrefixOf_iff_prefix, List.isPrefixOf_iff_prefix]
    refine ⟨fun ⟨tail, heq⟩ => ?_, fun h => h.trans (List.prefix_append _ _)⟩
    obtain ⟨middle, hcs, -⟩ | ⟨middle, hword', hmiddle⟩ := List.append_eq_append_iff.mp heq
    · exact ⟨middle, hcs.symm⟩
    · -- the word would go on with space
      cases middle with
      | nil => exact ⟨[], by rw [hword', List.append_nil, List.append_nil]⟩
      | cons c middle =>
        have hspace := hrest c (by rw [hmiddle]; exact List.mem_cons_self)
        refine absurd hspace (List.any_eq_false.mp hword c ?_)
        rw [hword']
        exact List.mem_append_right cs List.mem_cons_self
  rw [dropWord?, dropWord?, hprefix]
  split
  · next hword =>
    have hle := (List.isPrefixOf_iff_prefix.mp hword).length_le
    rw [List.drop_append_of_le_length hle]
    exact .of_some a (by rw [List.length_drop]; omega)
  · exact .of_none

end Words

/-! ## Values -/

section Values

variable {α : Type} {rest : List Char}

/-- Let the next character that is no space decide how to go on. -/
def readNext? (go : Char → List Char → Option (α × List Char)) (cs : List Char) :
    Option (α × List Char) :=
  match skipSpace cs with
  | [] => none
  | c :: r => go c r

theorem readNext?_carries (hrest : Spaces rest) {cs : List Char}
    {go go' : Char → List Char → Option (α × List Char)}
    (h : ∀ c r, r.length < cs.length → Carries rest cs.length (go c r) (go' c (r ++ rest))) :
    Carries rest cs.length (readNext? go cs) (readNext? go' (cs ++ rest)) := by
  have hle := length_skipSpace_le cs
  rw [readNext?, readNext?, skipSpace_append hrest]
  cases hskip : skipSpace cs with
  | nil => exact .of_none
  | cons c r =>
    rw [hskip, List.length_cons] at hle
    rw [if_neg (List.cons_ne_nil c r)]
    exact h c r (by omega)

/-- What stands between brackets, the first of which has been read: nothing, or what a reader makes
of it. -/
def readBetween? (close : Char) (some? : List Char → Option (List α × List Char)) :
    List Char → Option (List α × List Char) :=
  readNext? fun c r => if c = close then some ([], r) else some? (c :: r)

/-- What follows an element: the bracket that closes the list, or a comma and more elements. -/
def readMore? (close : Char) (more? : List Char → Option (List α × List Char)) (a : α) :
    List Char → Option (List α × List Char) :=
  readNext? fun c r =>
    if c = close then some ([a], r)
    else if c = ',' then (more? r).map fun (others, r) => (a :: others, r)
    else none

/-- A member of an object. -/
def readMember? (value? : List Char → Option (Written × List Char)) :
    List Char → Option ((List Piece × Written) × List Char) :=
  readNext? fun c r =>
    if c = '"' then
      (readPieces? r).bind fun (name, r) =>
        readNext? (fun c r => if c = ':' then (value? r).map fun (w, r) => ((name, w), r) else none) r
    else none

/-- A value whose first character has been read. -/
def readFrom? (items? : List Char → Option (List Written × List Char))
    (members? : List Char → Option (List (List Piece × Written) × List Char)) (c : Char)
    (r : List Char) : Option (Written × List Char) :=
  if c = 'n' then (dropWord? "ull".toList r).map (Written.null, ·)
  else if c = 't' then (dropWord? "rue".toList r).map (Written.bool true, ·)
  else if c = 'f' then (dropWord? "alse".toList r).map (Written.bool false, ·)
  else if c = '"' then (readPieces? r).map fun (s, r) => (.text s, r)
  else if c = '[' then (readBetween? ']' items? r).map fun (items, r) => (.array items, r)
  else if c = '\x7b' then
    (readBetween? '\x7d' members? r).map fun (members, r) => (.object members, r)
  else if c = '-' then (readNumeral? true r).map fun (n, r) => (.number n, r)
  else (readNumeral? false (c :: r)).map fun (n, r) => (.number n, r)

theorem readItems?_nil (fuel : Nat) : readItems? fuel [] = none := by
  cases fuel with
  | zero => rfl
  | succ fuel =>
    rw [readItems?]
    cases fuel <;> rfl

theorem readMembers?_nil (fuel : Nat) : readMembers? fuel [] = none := by
  cases fuel <;> rfl

/-- The items of an array go on after one of them. -/
theorem readMore?_bracket (more? : List Char → Option (List α × List Char)) (a : α) (cs : List Char) :
    (match skipSpace cs with
      | ']' :: r => some ([a], r)
      | ',' :: r => (more? r).map fun (others, r) => (a :: others, r)
      | _ => none) = readMore? ']' more? a cs := by
  rw [readMore?, readNext?]
  cases skipSpace cs with
  | nil => rfl
  | cons c r =>
    dsimp only
    split
    · next h =>
      obtain ⟨rfl, rfl⟩ := List.cons.inj h
      rfl
    · next h =>
      obtain ⟨rfl, rfl⟩ := List.cons.inj h
      rfl
    · next hclose hcomma =>
      rw [if_neg fun h => hclose r (by rw [h]), if_neg fun h => hcomma r (by rw [h])]

/-- So do the members of an object. -/
theorem readMore?_brace (more? : List Char → Option (List α × List Char)) (a : α) (cs : List Char) :
    (match skipSpace cs with
      | '\x7d' :: r => some ([a], r)
      | ',' :: r => (more? r).map fun (others, r) => (a :: others, r)
      | _ => none) = readMore? '\x7d' more? a cs := by
  rw [readMore?, readNext?]
  cases skipSpace cs with
  | nil => rfl
  | cons c r =>
    dsimp only
    split
    · next h =>
      obtain ⟨rfl, rfl⟩ := List.cons.inj h
      rfl
    · next h =>
      obtain ⟨rfl, rfl⟩ := List.cons.inj h
      rfl
    · next hclose hcomma =>
      rw [if_neg fun h => hclose r (by rw [h]), if_neg fun h => hcomma r (by rw [h])]

theorem readItems?_succ (fuel : Nat) (cs : List Char) :
    readItems? (fuel + 1) cs = (readValue? fuel cs).bind fun (item, r) =>
      readMore? ']' (readItems? fuel) item r := by
  rw [readItems?]
  show (readValue? fuel cs).bind _ = _
  congr 1
  funext ⟨item, r⟩
  exact readMore?_bracket (readItems? fuel) item r

/-- A member is a name and a value, with a colon between them. -/
theorem readMembers?_succ (fuel : Nat) (cs : List Char) :
    readMembers? (fuel + 1) cs = (readMember? (readValue? fuel) cs).bind fun (m, r) =>
      readMore? '\x7d' (readMembers? fuel) m r := by
  rw [readMembers?, readMember?, readNext?]
  cases skipSpace cs with
  | nil => rfl
  | cons c s =>
    dsimp only
    split
    · next h =>
      obtain ⟨rfl, rfl⟩ := List.cons.inj h
      rw [if_pos rfl, Option.bind_assoc]
      show (readPieces? s).bind _ = _
      congr 1
      funext ⟨name, r⟩
      dsimp only
      rw [readNext?]
      cases skipSpace r with
      | nil => rfl
      | cons c s =>
        dsimp only
        split
        · next h =>
          obtain ⟨rfl, rfl⟩ := List.cons.inj h
          rw [if_pos rfl, Option.bind_map]
          show (readValue? fuel s).bind _ = _
          congr 1
          funext ⟨w, r⟩
          exact readMore?_brace (readMembers? fuel) (name, w) r
        · next hcolon =>
          rw [if_neg fun h => hcolon s (by rw [h])]
          rfl
    · next hquote =>
      rw [if_neg fun h => hquote s (by rw [h])]
      rfl

theorem readValue?_succ (fuel : Nat) (cs : List Char) :
    readValue? (fuel + 1) cs =
      readNext? (readFrom? (readItems? fuel) (readMembers? fuel)) cs := by
  rw [readValue?, readNext?]
  cases skipSpace cs with
  | nil => rfl
  | cons c s =>
    dsimp only
    split
    -- an array: the reader looks whether it is empty before it asks for items
    case h_5 h =>
      obtain ⟨rfl, rfl⟩ := List.cons.inj h
      show _ = (readBetween? ']' (readItems? fuel) s).map fun read => (Written.array read.1, read.2)
      rw [readBetween?, readNext?]
      cases skipSpace s with
      | nil =>
        show (readItems? fuel []).map _ = _
        rw [readItems?_nil]
      | cons c r =>
        dsimp only
        split
        · next h =>
          obtain ⟨rfl, rfl⟩ := List.cons.inj h
          rfl
        · next hclose => rw [if_neg fun h => hclose r (by rw [h])]
    case h_6 h =>
      obtain ⟨rfl, rfl⟩ := List.cons.inj h
      show _ = (readBetween? '\x7d' (readMembers? fuel) s).map fun read =>
        (Written.object read.1, read.2)
      rw [readBetween?, readNext?]
      cases skipSpace s with
      | nil =>
        show (readMembers? fuel []).map _ = _
        rw [readMembers?_nil]
      | cons c r =>
        dsimp only
        split
        · next h =>
          obtain ⟨rfl, rfl⟩ := List.cons.inj h
          rfl
        · next hclose => rw [if_neg fun h => hclose r (by rw [h])]
    -- a numeral without a sign, which is read with its first digit
    case h_8 hn ht hf hquote hbracket hbrace hminus =>
      rw [readFrom?, if_neg fun h => hn s (by rw [h]), if_neg fun h => ht s (by rw [h]),
        if_neg fun h => hf s (by rw [h]), if_neg fun h => hquote s (by rw [h]),
        if_neg fun h => hbracket s (by rw [h]), if_neg fun h => hbrace s (by rw [h]),
        if_neg fun h => hminus s (by rw [h])]
    all_goals
      next h =>
        obtain ⟨rfl, rfl⟩ := List.cons.inj h
        rfl

/-! ## What follows a value -/

variable {cs : List Char} {a : α}

theorem readBetween?_carries (hrest : Spaces rest) {close : Char}
    {some? some?' : List Char → Option (List α × List Char)}
    (h : ∀ r, r.length ≤ cs.length → Carries rest r.length (some? r) (some?' (r ++ rest))) :
    Carries rest cs.length (readBetween? close some? cs) (readBetween? close some?' (cs ++ rest)) := by
  refine readNext?_carries hrest fun c r hr => ?_
  exact .ite (fun _ => .of_some [] hr.le) fun _ => (h (c :: r) hr).mono hr

theorem readMore?_carries (hrest : Spaces rest) {close : Char}
    {more? more?' : List Char → Option (List α × List Char)}
    (h : ∀ r, r.length < cs.length → Carries rest r.length (more? r) (more?' (r ++ rest))) :
    Carries rest cs.length (readMore? close more? a cs) (readMore? close more?' a (cs ++ rest)) := by
  refine readNext?_carries hrest fun c r hr => ?_
  refine .ite (fun _ => .of_some [a] hr.le) fun _ => .ite (fun _ => ?_) fun _ => .of_none
  exact ((h r hr).mono hr.le).map (a :: ·)

theorem readMember?_carries (hrest : Spaces rest)
    {value? value?' : List Char → Option (Written × List Char)}
    (h : ∀ r, r.length < cs.length → Carries rest r.length (value? r) (value?' (r ++ rest))) :
    Carries rest cs.length (readMember? value? cs) (readMember? value?' (cs ++ rest)) := by
  refine readNext?_carries hrest fun c r hr => .ite (fun _ => ?_) fun _ => .of_none
  refine (readPieces?_carries hrest r).bind fun name r' hr' => ?_
  refine (readNext?_carries hrest fun c s hs => .ite (fun _ => ?_) fun _ => .of_none).mono
    (hr'.trans hr.le)
  exact ((h s (by omega)).mono hs.le).map fun w => (name, w)

theorem readNumeral?_carries (hrest : Spaces rest) (negative : Bool) (cs : List Char) :
    Carries rest cs.length (readNumeral? negative cs) (readNumeral? negative (cs ++ rest)) where
  eq := readNumeral?_append hrest.endsNumeral negative cs
  le _ _ h := (readNumeral?_suffix h).1.length_le

theorem readFrom?_carries (hrest : Spaces rest)
    {items? items?' : List Char → Option (List Written × List Char)}
    {members? members?' : List Char → Option (List (List Piece × Written) × List Char)}
    (hitems : ∀ r, r.length ≤ cs.length → Carries rest r.length (items? r) (items?' (r ++ rest)))
    (hmembers : ∀ r, r.length ≤ cs.length →
      Carries rest r.length (members? r) (members?' (r ++ rest))) (c : Char) :
    Carries rest (c :: cs).length (readFrom? items? members? c cs)
      (readFrom? items?' members?' c (cs ++ rest)) := by
  have hle : cs.length ≤ (c :: cs).length := Nat.le_succ _
  refine .ite (fun _ => (dropWord?_carries rfl hrest Written.null cs).mono hle) fun _ => ?_
  refine .ite (fun _ => (dropWord?_carries rfl hrest (Written.bool true) cs).mono hle)
    fun _ => ?_
  refine .ite (fun _ => (dropWord?_carries rfl hrest (Written.bool false) cs).mono hle)
    fun _ => ?_
  refine .ite (fun _ => ((readPieces?_carries hrest cs).mono hle).map Written.text) fun _ => ?_
  refine .ite (fun _ => ((readBetween?_carries hrest hitems).mono hle).map Written.array) fun _ => ?_
  refine .ite (fun _ => ((readBetween?_carries hrest hmembers).mono hle).map Written.object) fun _ => ?_
  refine .ite (fun _ => ((readNumeral?_carries hrest true cs).mono hle).map Written.number) fun _ => ?_
  exact (readNumeral?_carries hrest false (c :: cs)).map Written.number

/-- **What follows a value makes no difference if it is space**, and neither does fuel that is not
needed. By induction on the fuel: each list needs one unit more than the values in it, and loses a
character to the bracket or the comma in front of it. -/
theorem carries_of_fuel (hrest : Spaces rest) (fuel : Nat) :
    (∀ fuel' cs, 2 * cs.length + 1 ≤ fuel → 2 * cs.length + 1 ≤ fuel' →
        Carries rest cs.length (readValue? fuel cs) (readValue? fuel' (cs ++ rest))) ∧
      (∀ fuel' cs, 2 * cs.length + 2 ≤ fuel → 2 * cs.length + 2 ≤ fuel' →
        Carries rest cs.length (readItems? fuel cs) (readItems? fuel' (cs ++ rest))) ∧
      ∀ fuel' cs, 2 * cs.length + 2 ≤ fuel → 2 * cs.length + 2 ≤ fuel' →
        Carries rest cs.length (readMembers? fuel cs) (readMembers? fuel' (cs ++ rest)) := by
  induction fuel with
  | zero =>
    refine ⟨?_, ?_, ?_⟩ <;> (intro _ _ h; omega)
  | succ fuel ih =>
    obtain ⟨hvalue, hitems, hmembers⟩ := ih
    refine ⟨?_, ?_, ?_⟩
    · intro fuel' cs hfuel hfuel'
      obtain ⟨fuel', rfl⟩ : ∃ k, fuel' = k + 1 := ⟨fuel' - 1, by omega⟩
      rw [readValue?_succ, readValue?_succ]
      refine readNext?_carries hrest fun c r hr => ?_
      refine (readFrom?_carries hrest (fun s hs => ?_) (fun s hs => ?_) c).mono hr
      · exact hitems fuel' s (by omega) (by omega)
      · exact hmembers fuel' s (by omega) (by omega)
    · intro fuel' cs hfuel hfuel'
      obtain ⟨fuel', rfl⟩ : ∃ k, fuel' = k + 1 := ⟨fuel' - 1, by omega⟩
      rw [readItems?_succ, readItems?_succ]
      refine (hvalue fuel' cs (by omega) (by omega)).bind fun item r hr => ?_
      refine (readMore?_carries hrest fun s hs => ?_).mono hr
      exact hitems fuel' s (by omega) (by omega)
    · intro fuel' cs hfuel hfuel'
      obtain ⟨fuel', rfl⟩ : ∃ k, fuel' = k + 1 := ⟨fuel' - 1, by omega⟩
      rw [readMembers?_succ, readMembers?_succ]
      refine (readMember?_carries hrest fun s hs => ?_).bind fun m r hr => ?_
      · exact hvalue fuel' s (by omega) (by omega)
      · refine (readMore?_carries hrest fun s hs => ?_).mono hr
        exact hmembers fuel' s (by omega) (by omega)

theorem Written.ofText?_append_spaces (hrest : Spaces rest) (cs : List Char) :
    Written.ofText? (cs ++ rest) = Written.ofText? cs := by
  have hread := ((carries_of_fuel hrest (2 * cs.length + 2)).1 (2 * (cs ++ rest).length + 2) cs
    (by omega) (by rw [List.length_append]; omega)).eq
  rw [Written.ofText?, Written.ofText?, hread]
  rcases readValue? (2 * cs.length + 2) cs with _ | ⟨w, r⟩
  · rfl
  · show (if (skipSpace (r ++ rest)).isEmpty then some w else none) =
      if (skipSpace r).isEmpty then some w else none
    rw [skipSpace_append hrest]
    cases skipSpace r <;> rfl

/-- **Space behind a document makes no difference.** -/
theorem ofText?_append_spaces (hrest : Spaces rest) (cs : List Char) :
    ofText? (cs ++ rest) = ofText? cs := by
  rw [ofText?, ofText?, Written.ofText?_append_spaces hrest]

end Values

end EntityStore.Json
