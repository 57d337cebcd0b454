import EntityStore.Proofs.QueryText.Formed
import EntityStore.Text.Blank
import Mathlib.Data.List.Basic

/-!
# Where tokens and errors stand

A token remembers the byte it begins at, and so does an error. **Both stand in the text where they
say**, for whatever text is read: no byte lies outside of it or inside a character, and what is found
there is the token, or the fragment of the error. A token can therefore be sliced out of the text
when it is needed. The reader keeps this from step to step, with the tokens that are left.

Places are counted in bytes, and a character may take several, so there is a slice from one byte to
another only when both lie between characters. What stands between two other parts of a text can be
sliced out at the bytes these take.
-/

/-! ## Slices of a text -/

namespace EntityStore.Text

/-- The part of the text from byte `start` up to byte `stop`. There is none when one of them lies
outside of the text or inside a character, or when they are in the wrong order. -/
def slice? (s : String) (start stop : Nat) : Option String := do
  let first ← s.pos? ⟨start⟩
  let last ← s.pos? ⟨stop⟩
  if first ≤ last then some (s.extract first last) else none

theorem byteLength_eq (cs : List Char) : byteLength cs = (String.ofList cs).utf8ByteSize := by
  induction cs with
  | nil => rfl
  | cons c cs ih =>
      rw [byteLength_cons, ih, String.ofList_cons, String.utf8ByteSize_append,
        String.utf8ByteSize_singleton]

theorem byteLength_toList (s : String) : byteLength s.toList = s.utf8ByteSize := by
  rw [byteLength_eq, String.ofList_toList]

/-- There is a position at every byte between characters. -/
theorem pos?_eq_some {s : String} {p : String.Pos.Raw} (h : p.IsValid s) :
    s.pos? p = some (s.pos p h) := by
  have hslice : String.Pos.Raw.isValidForSlice s.toSlice p = true :=
    String.Pos.Raw.isValidForSlice_eq_true_iff.mpr (String.Pos.Raw.isValidForSlice_toSlice_iff.mpr h)
  rw [String.pos?, String.Slice.pos?, dif_pos hslice]
  rfl

/-- **What stands between two parts of a text can be sliced out.** -/
theorem slice?_append (before part after : String) :
    slice? (before ++ part ++ after) before.utf8ByteSize (before.utf8ByteSize + part.utf8ByteSize)
      = some part := by
  have hstart : String.Pos.Raw.IsValid (before ++ part ++ after) ⟨before.utf8ByteSize⟩ :=
    String.Pos.Raw.isValid_iff_exists_append.mpr ⟨before, part ++ after, String.append_assoc, rfl⟩
  have hstop : String.Pos.Raw.IsValid (before ++ part ++ after)
      ⟨before.utf8ByteSize + part.utf8ByteSize⟩ := by
    refine String.Pos.Raw.isValid_iff_exists_append.mpr ⟨before ++ part, after, rfl, ?_⟩
    rw [String.Pos.Raw.ext_iff]
    exact (String.utf8ByteSize_append ..).symm
  have hle : String.pos _ _ hstart ≤ String.pos _ _ hstop := Nat.le_add_right _ _
  rw [slice?, pos?_eq_some hstart, pos?_eq_some hstop]
  simp only [Option.bind_eq_bind, Option.bind_some, if_pos hle]
  refine congrArg some (String.toByteArray_inj.mp ?_)
  calc (String.extract (String.pos _ _ hstart) (String.pos _ _ hstop)).toByteArray
      = (before.toByteArray ++ (part.toByteArray ++ after.toByteArray)).extract
          (before.toByteArray.size + 0) (before.toByteArray.size + part.toByteArray.size) := by
        simp only [String.toByteArray_extract, String.toByteArray_append, ByteArray.append_assoc,
          String.size_toByteArray, Nat.add_zero, String.offset_pos]
    _ = (part.toByteArray ++ after.toByteArray).extract 0 part.toByteArray.size :=
        ByteArray.extract_append_size_add
    _ = part.toByteArray := ByteArray.extract_append_eq_left rfl

example : slice? "naïve" 2 4 = some "ï" ∧ slice? "naïve" 2 3 = none ∧ slice? "naïve" 2 7 = none := by
  decide

/-- The characters stand in the text from the given byte on. -/
def Stands (whole : List Char) (position : Nat) (part : List Char) : Prop :=
  ∃ before after, whole = before ++ part ++ after ∧ byteLength before = position

namespace Stands

variable {whole part : List Char} {position : Nat}

theorem whole_self (cs : List Char) : Stands cs 0 cs := ⟨[], [], by simp, rfl⟩

theorem nil_end (cs : List Char) : Stands cs (byteLength cs) [] := ⟨cs, [], by simp, rfl⟩

/-- So do the characters after the first one, from the byte after it on. -/
theorem tail {c : Char} (h : Stands whole position (c :: part)) :
    Stands whole (position + c.utf8Size) part := by
  obtain ⟨before, after, rfl, rfl⟩ := h
  exact ⟨before ++ [c], after, by simp, by simp⟩

/-- What stands in a text ends within it. -/
theorem le (h : Stands whole position part) : position + byteLength part ≤ byteLength whole := by
  obtain ⟨before, after, rfl, rfl⟩ := h
  rw [byteLength_append, byteLength_append]
  exact Nat.le_add_right _ _

/-- **What stands in a text can be sliced out.** -/
theorem slice?_eq {s : String} (h : Stands s.toList position part) :
    slice? s position (position + byteLength part) = some (String.ofList part) := by
  obtain ⟨before, after, hs, rfl⟩ := h
  have hparts : s = String.ofList before ++ String.ofList part ++ String.ofList after := by
    rw [← String.ofList_append, ← String.ofList_append, ← hs, String.ofList_toList]
  rw [hparts, byteLength_eq, byteLength_eq]
  exact slice?_append _ _ _

end Stands

end EntityStore.Text

namespace EntityStore.QueryText

open Text

/-! ## Tokens and errors in place -/

/-- The token has been cut out of the text, at the byte it begins at. -/
structure Token.Placed (cs : List Char) (t : Token) : Prop where
  stands : Stands cs t.start t.text
  cut : t.Cut

/-- The fragment of the error stands in the text at its position. -/
def Blames (cs : List Char) (e : SyntaxError) : Prop := Stands cs e.position e.fragment.toList

/-- An outcome of reading the text: what is read is as it should be, or the error stands in it. -/
inductive Settled (cs : List Char) {α : Type} (good : α → Prop) : Except SyntaxError α → Prop
  | ok {a : α} (h : good a) : Settled cs good (.ok a)
  | error {e : SyntaxError} (h : Blames cs e) : Settled cs good (.error e)

namespace Settled

variable {cs : List Char} {α β : Type} {good : α → Prop} {x : Except SyntaxError α}

theorem of_ok {a : α} (h : Settled cs good x) (hx : x = .ok a) : good a := by
  subst hx
  cases h with
  | ok h => exact h

theorem of_error {e : SyntaxError} (h : Settled cs good x) (hx : x = .error e) : Blames cs e := by
  subst hx
  cases h with
  | error h => exact h

theorem map {f : α → β} {good' : β → Prop} (h : Settled cs good x) (hf : ∀ a, good a → good' (f a)) :
    Settled cs good' (x.map f) := by
  cases h with
  | ok h => exact .ok (hf _ h)
  | error h => exact .error h

end Settled

theorem blames_ofList {cs part : List Char} {position : Nat} (h : Stands cs position part)
    (fault : SyntaxFault) (atEnd : Bool) : Blames cs ⟨String.ofList part, position, fault, atEnd⟩ := by
  rw [Blames, String.toList_ofList]
  exact h

/-- **The tokens of a text stand in it, or what is no token does.** -/
theorem settled_tokensFrom {position : Nat} (before cs : List Char) (h : byteLength before = position) :
    Settled (before ++ cs) (fun ts => ∀ t ∈ ts, Stands (before ++ cs) t.start t.text)
      (tokensFrom position cs) := by
  fun_induction tokensFrom position cs generalizing before with
  | case1 => exact .ok fun t ht => (by cases ht)
  | case2 position c rest hgap ih =>
      have hrest := ih (before ++ [c]) (by simp [h])
      rwa [List.append_assoc, List.singleton_append] at hrest
  | case3 position c rest hgap n hext =>
      exact .error (blames_ofList ⟨before, rest.drop n, by simp, h⟩ _ _)
  | case4 position c rest hgap kind n hext e hrest ih =>
      have htail := ih (before ++ c :: rest.take n) (by simp [h])
      rw [List.append_assoc, List.cons_append, List.take_append_drop] at htail
      exact .error (htail.of_error hrest)
  | case5 position c rest hgap kind n hext ts hrest ih =>
      have htail := ih (before ++ c :: rest.take n) (by simp [h])
      rw [List.append_assoc, List.cons_append, List.take_append_drop] at htail
      refine .ok fun t ht => ?_
      rcases List.mem_cons.mp ht with rfl | ht
      · exact ⟨before, rest.drop n, by simp, h⟩
      · exact htail.of_ok hrest t ht

theorem settled_tokens (input : String) :
    Settled input.toList (fun ts => ∀ t ∈ ts, t.Placed input.toList) (tokens input) := by
  have h := settled_tokensFrom [] input.toList rfl
  rw [List.nil_append] at h
  unfold tokens
  cases hcut : tokensFrom 0 input.toList with
  | error e => exact .error (h.of_error hcut)
  | ok ts => exact .ok fun t ht => ⟨h.of_ok hcut t ht, cut_of_tokensFrom hcut t ht⟩

/-! ## What the reader keeps -/

section Reading

variable {cs : List Char} {ts : List Token}

theorem blames_errorAt (h : ∀ t ∈ ts, t.Placed cs) (fault : SyntaxFault) :
    Blames cs (errorAt (byteLength cs) fault ts) := by
  cases ts with
  | nil => exact Stands.nil_end cs
  | cons t rest => exact blames_ofList (h t List.mem_cons_self).stands _ _

theorem settled_expect (h : ∀ t ∈ ts, t.Placed cs) (kind : TokenKind) (what : Expected) :
    Settled cs (fun r => ∀ t ∈ r.1 :: r.2, t.Placed cs) (expect (byteLength cs) kind what ts) := by
  unfold expect
  split
  · split
    · exact .ok h
    · exact .error (blames_errorAt h _)
  · exact .error (blames_errorAt h _)

theorem settled_readNumber {text : List Char} {position : Nat} (h : Stands cs position text) :
    Settled cs (fun _ => True) (readNumber text position) := by
  unfold readNumber
  split
  · split
    · exact .ok trivial
    · exact .error (blames_ofList h _ _)
  · split
    · exact .ok trivial
    · exact .error (blames_ofList h _ _)

/-- The hyphen of a bound stands before its digits, as part of their token or as a token. -/
theorem settled_readRangeEnd (h : ∀ t ∈ ts, t.Placed cs) (stop : Nat) :
    Settled cs (fun _ => True) (readRangeEnd stop ts) := by
  unfold readRangeEnd
  split
  · exact .ok trivial
  case h_2 t rest =>
    have ht := h t List.mem_cons_self
    split
    · exact .ok trivial
    · split
      · split
        case h_1 digits htext =>
          have hdigits : Stands cs (t.start + 1) digits := Stands.tail (htext ▸ ht.stands)
          exact (settled_readNumber hdigits).map fun _ _ => trivial
        case h_2 => exact .ok trivial
      · split
        case isTrue hminus =>
          have hblames : Blames cs ⟨"-", t.start, .rangeWithoutEnd, false⟩ := by
            have hstands := ht.stands
            rw [ht.cut.minus hminus] at hstands
            exact blames_ofList hstands _ _
          split
          case h_1 u more =>
            have hu := h u (List.mem_cons_of_mem t List.mem_cons_self)
            split
            · exact (settled_readNumber hu.stands).map fun _ _ => trivial
            · exact .error hblames
          case h_2 => exact .error hblames
        case isFalse => exact .ok trivial

theorem settled_readLiteral {t : Token} (h : ∀ u ∈ t :: ts, u.Placed cs) :
    Settled cs (fun _ => True) (readLiteral t ts) := by
  obtain ⟨ht, hts⟩ := List.forall_mem_cons.mp h
  have hnumber := settled_readNumber ht.stands
  have hend := settled_readRangeEnd hts t.stop
  unfold readLiteral
  split
  · split
    case h_1 e he => exact .error (hnumber.of_error he)
    case h_2 =>
      split
      case h_1 e he => exact .error (hend.of_error he)
      case h_2 => exact .ok trivial
      case h_3 => exact .ok trivial
  · exact .ok trivial
  · exact .ok trivial
  · split
    · exact .ok trivial
    · split
      · exact .ok trivial
      · exact .ok trivial

theorem settled_readValues (h : ∀ t ∈ ts, t.Placed cs) (expecting : Bool) :
    Settled cs (fun r => ∀ t ∈ r.2, t.Placed cs) (readValues expecting ts) := by
  fun_induction readValues expecting ts with
  | case1 => exact .ok h
  | case2 expecting t rest hcomma ih => exact ih fun u hu => h u (List.mem_cons_of_mem t hu)
  | case3 expecting t rest hcomma hstarts e hread =>
      exact .error ((settled_readLiteral h).of_error hread)
  | case4 expecting t rest hcomma hstarts l n hread e hvalues ih =>
      have hmore := ih fun u hu => h u (List.mem_cons_of_mem t (List.mem_of_mem_drop hu))
      exact .error (hmore.of_error hvalues)
  | case5 expecting t rest hcomma hstarts l n hread ls rest' hvalues ih =>
      have hmore := ih fun u hu => h u (List.mem_cons_of_mem t (List.mem_of_mem_drop hu))
      have hrest := hmore.of_ok hvalues
      exact .ok hrest
  | case6 => exact .ok h

theorem settled_readPathRest (h : ∀ t ∈ ts, t.Placed cs) :
    Settled cs (fun r => ∀ t ∈ r.2, t.Placed cs) (readPathRest (byteLength cs) ts) := by
  fun_induction readPathRest (byteLength cs) ts with
  | case1 t hdot w rest hword e hpath ih =>
      have hmore := ih fun u hu => h u (List.mem_cons_of_mem t (List.mem_cons_of_mem w hu))
      exact .error (hmore.of_error hpath)
  | case2 t hdot w rest hword segments rest' hpath ih =>
      have hmore := ih fun u hu => h u (List.mem_cons_of_mem t (List.mem_cons_of_mem w hu))
      have hrest := hmore.of_ok hpath
      exact .ok hrest
  | case3 t hdot w rest hword =>
      exact .error (blames_errorAt (fun u hu => h u (List.mem_cons_of_mem t hu)) _)
  | case4 => exact .error (blames_errorAt (fun u hu => (by cases hu)) _)
  | case5 => exact .ok h
  | case6 => exact .ok h

/-- A path, a colon, an operator, a colon and values: each is read of what the one before leaves. -/
theorem settled_readCriterion (w : Token) (h : ∀ t ∈ ts, t.Placed cs) :
    Settled cs (fun r => ∀ t ∈ r.2, t.Placed cs) (readCriterion (byteLength cs) w ts) := by
  unfold readCriterion
  have hpath := settled_readPathRest h
  split
  case h_1 e he => exact .error (hpath.of_error he)
  case h_2 segments ts₁ hts₁ =>
    have hcolon := settled_expect (hpath.of_ok hts₁) .colon .colonAfterPath
    split
    case h_1 e he => exact .error (hcolon.of_error he)
    case h_2 colon ts₂ hts₂ =>
      have hoperator := settled_expect (List.forall_mem_cons.mp (hcolon.of_ok hts₂)).2 .word .operatorName
      split
      case h_1 e he => exact .error (hoperator.of_error he)
      case h_2 operator ts₃ hts₃ =>
        have hcolon' := settled_expect (List.forall_mem_cons.mp (hoperator.of_ok hts₃)).2 .colon
          .colonAfterOperator
        split
        case h_1 e he => exact .error (hcolon'.of_error he)
        case h_2 colon' ts₄ hts₄ =>
          have hvalues := settled_readValues (List.forall_mem_cons.mp (hcolon'.of_ok hts₄)).2 true
          split
          case h_1 e he => exact .error (hvalues.of_error he)
          case h_2 values ts₅ hts₅ =>
            have hrest := hvalues.of_ok hts₅
            exact .ok hrest

/-- **Whatever the groups, an error of reading them stands in the text.** By induction on the steps
of the reader. -/
theorem settled_readGroups (h : ∀ t ∈ ts, t.Placed cs) (outer : List Group) (group : Group) :
    Settled cs (fun _ => True) (readGroups (byteLength cs) outer group ts) := by
  fun_induction readGroups (byteLength cs) outer group ts with
  | case1 => exact .ok trivial
  | case2 => exact .error (blames_errorAt (fun u hu => (by cases hu)) _)
  | case3 outer group t rest hand ih => exact ih fun u hu => h u (List.mem_cons_of_mem t hu)
  | case4 outer group t rest hand hor ih => exact ih fun u hu => h u (List.mem_cons_of_mem t hu)
  | case5 outer group t rest hand hor hopen hseparated ih =>
      exact ih fun u hu => h u (List.mem_cons_of_mem t hu)
  | case6 => exact .error (blames_errorAt h _)
  | case7 outer group t rest hand hor hopen hword hseparated e hread =>
      have hcriterion := settled_readCriterion t fun u hu => h u (List.mem_cons_of_mem t hu)
      exact .error (hcriterion.of_error hread)
  | case8 outer group t rest hand hor hopen hword hseparated c rest' hread hlength ih =>
      have hcriterion := settled_readCriterion t fun u hu => h u (List.mem_cons_of_mem t hu)
      exact ih (hcriterion.of_ok hread)
  | case9 => exact .error (blames_errorAt h _)
  | case10 => exact .error (blames_errorAt h _)
  | case11 group t rest hand hor hopen hword parent outer hclose ih =>
      exact ih fun u hu => h u (List.mem_cons_of_mem t hu)
  | case12 => exact .error (blames_errorAt h _)

/-- An unknown direction is to blame itself. -/
theorem settled_readOrderKey (w : Token) (h : ∀ t ∈ ts, t.Placed cs) :
    Settled cs (fun r => ∀ t ∈ r.2, t.Placed cs) (readOrderKey (byteLength cs) w ts) := by
  unfold readOrderKey
  have hpath := settled_readPathRest h
  split
  case h_1 e he => exact .error (hpath.of_error he)
  case h_2 segments ts₁ hts₁ =>
    have hcolon := settled_expect (hpath.of_ok hts₁) .colon .colonAfterPath
    split
    case h_1 e he => exact .error (hcolon.of_error he)
    case h_2 colon ts₂ hts₂ =>
      have hword := settled_expect (List.forall_mem_cons.mp (hcolon.of_ok hts₂)).2 .word .sortDirection
      split
      case h_1 e he => exact .error (hword.of_error he)
      case h_2 word ts₃ hts₃ =>
        obtain ⟨hplaced, hrest⟩ := List.forall_mem_cons.mp (hword.of_ok hts₃)
        dsimp only
        split
        · exact .ok hrest
        · split
          · exact .ok hrest
          · exact .error (blames_ofList hplaced.stands _ _)

theorem settled_readOrderKeys (h : ∀ t ∈ ts, t.Placed cs) (separated : Bool) :
    Settled cs (fun _ => True) (readOrderKeys (byteLength cs) separated ts) := by
  fun_induction readOrderKeys (byteLength cs) separated ts with
  | case1 => exact .ok trivial
  | case2 separated t rest htilde ih => exact ih fun u hu => h u (List.mem_cons_of_mem t hu)
  | case3 separated t rest htilde hword e hread =>
      have hkey := settled_readOrderKey t fun u hu => h u (List.mem_cons_of_mem t hu)
      exact .error (hkey.of_error hread)
  | case4 separated t rest htilde hword k rest' hread hlength e hkeys ih =>
      have hkey := settled_readOrderKey t fun u hu => h u (List.mem_cons_of_mem t hu)
      exact .error ((ih (hkey.of_ok hread)).of_error hkeys)
  | case5 => exact .ok trivial
  | case6 => exact .error (blames_errorAt h _)

end Reading

/-! ## Whole texts -/

/-- **A filter is read, or what is wrong with it stands in its text.** -/
theorem settled_readFilter (input : String) :
    Settled input.toList (fun _ => True) (readFilter input) := by
  have hcut := settled_tokens input
  unfold readFilter
  split
  case h_1 e he => exact .error (hcut.of_error he)
  case h_2 ts hts =>
    have hread := settled_readGroups (hcut.of_ok hts) [] .empty
    split
    case h_1 e he => exact .error (hread.of_error he)
    case h_2 => exact .ok trivial
    case h_3 => exact .error (Stands.whole_self _)

/-- **An order is read, or what is wrong with it stands in its text.** -/
theorem settled_readOrder (input : String) :
    Settled input.toList (fun _ => True) (readOrder input) := by
  have hcut := settled_tokens input
  unfold readOrder
  split
  case h_1 e he => exact .error (hcut.of_error he)
  case h_2 ts hts =>
    have hread := settled_readOrderKeys (hcut.of_ok hts) true
    split
    case h_1 e he => exact .error (hread.of_error he)
    case h_2 => exact .error (Stands.whole_self _)
    case h_3 => exact .ok trivial

/-- The slices that are taken of a token are there: its own of the text, and what stands between
the quotes of a quoted one. -/
structure Token.SlicedFrom (input : String) (t : Token) : Prop where
  text : slice? input t.start t.stop = some (String.ofList t.text)
  body : t.kind = .quoted →
    slice? (String.ofList t.text) 1 (byteLength t.text - 1) = some (String.ofList t.text.tail.dropLast)

theorem Token.Placed.slicedFrom {input : String} {t : Token} (h : t.Placed input.toList) :
    t.SlicedFrom input where
  text := h.stands.slice?_eq
  body := by
    intro hkind
    obtain ⟨quote, body, hquote, htext⟩ := h.cut.quoted hkind
    have hsize : quote.utf8Size = 1 := by rcases hquote with rfl | rfl <;> rfl
    have hstands : Stands (String.ofList t.text).toList 1 body := by
      rw [String.toList_ofList, htext]
      exact ⟨[quote], [quote], rfl, by simp [hsize]⟩
    have hstop : byteLength t.text - 1 = 1 + byteLength body := by
      rw [htext, byteLength_cons, byteLength_append, byteLength_cons, byteLength_nil, hsize]
      omega
    have hbody : t.text.tail.dropLast = body := by
      rw [htext, List.tail_cons, List.dropLast_concat]
    rw [hstop, hbody]
    exact hstands.slice?_eq

/-- The error points at a part of the text: its fragment ends within it, and is what is sliced out
there. -/
structure PointsInto (input : String) (e : SyntaxError) : Prop where
  within : e.position + e.fragment.utf8ByteSize ≤ input.utf8ByteSize
  fragment : slice? input e.position (e.position + e.fragment.utf8ByteSize) = some e.fragment

theorem pointsInto_of_blames {input : String} {e : SyntaxError} (h : Blames input.toList e) :
    PointsInto input e := by
  refine ⟨?_, ?_⟩
  · rw [← byteLength_toList, ← byteLength_toList]
    exact h.le
  · have hslice := h.slice?_eq
    rwa [byteLength_toList, String.ofList_toList] at hslice

/-- What is settled is there, or its error points into the text. -/
theorem Settled.ok_or_points {α : Type} {good : α → Prop} {input : String} {x : Except SyntaxError α}
    (h : Settled input.toList good x) :
    (∃ a, x = .ok a ∧ good a) ∨ ∃ e, x = .error e ∧ PointsInto input e := by
  cases h with
  | ok h => exact .inl ⟨_, rfl, h⟩
  | error h => exact .inr ⟨_, rfl, pointsInto_of_blames h⟩

/-- **Every text is cut into tokens that can be sliced out of it, and read as a filter and as an
order, or the error points into the text.** -/
theorem reads_or_points_into (input : String) :
    ((∃ ts, tokens input = .ok ts ∧ ∀ t ∈ ts, t.SlicedFrom input) ∨
      ∃ e, tokens input = .error e ∧ PointsInto input e) ∧
    ((∃ expr, readFilter input = .ok expr) ∨
      ∃ e, readFilter input = .error e ∧ PointsInto input e) ∧
    ((∃ order, readOrder input = .ok order) ∨
      ∃ e, readOrder input = .error e ∧ PointsInto input e) := by
  refine ⟨?_, ?_, ?_⟩
  · exact (settled_tokens input).ok_or_points.imp_left
      fun ⟨ts, hts, hplaced⟩ => ⟨ts, hts, fun t ht => (hplaced t ht).slicedFrom⟩
  · exact (settled_readFilter input).ok_or_points.imp_left fun ⟨expr, h, _⟩ => ⟨expr, h⟩
  · exact (settled_readOrder input).ok_or_points.imp_left fun ⟨order, h, _⟩ => ⟨order, h⟩

example : tokens "naïve:asc" = .error ⟨"ï", 2, .unexpectedCharacter, false⟩ := by decide +kernel

end EntityStore.QueryText
