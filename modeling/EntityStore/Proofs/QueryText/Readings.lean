import EntityStore.Proofs.QueryText.Spoiled

/-!
# What the text of a value is read as

A value is written by its kind, and a quoted text is read by what it looks like. So a string that
looks like a timestamp comes back as one, one that begins like an address as an address, and a
timestamp whose year takes more than four digits as a string. What comes back of a number, a boolean
or null is that value; only a number that is not finite has no literal, and spoils the text it is
written in. So does a path whose first name reads as a separator.
-/

namespace EntityStore.QueryText

open Text

/-- What the text of a value is read as. -/
def reading : Value → Value
  | .string s => classify s.toList
  | .url s => classify s.toList
  | .timestamp t => classify t.toText.toList
  | v => v

/-- Every value but a number that is not finite has a literal. -/
def HasLiteral : Value → Prop
  | .float x => x.isFinite = true
  | _ => True

instance : (v : Value) → Decidable (HasLiteral v)
  | .float x => inferInstanceAs (Decidable (x.isFinite = true))
  | .null | .bool _ | .int _ | .string _ | .timestamp _ | .url _ => isTrue trivial

/-! ## Values -/

/-- **The text of a value that has a literal is read as its reading.** -/
theorem readsLiteral_reading {v : Value} (h : HasLiteral v) :
    ReadsLiteral v.toText.toList (.value (reading v)) := by
  cases v with
  | null => exact readsLiteral_null
  | bool b =>
      cases b with
      | true => exact readsLiteral_true
      | false => exact readsLiteral_false
  | int i => exact (readsNumber_int i).readsLiteral
  | float x => exact (readsNumber_float h).readsLiteral
  | string s => exact readsLiteral_quoted rfl
  | url s => exact readsLiteral_quoted rfl
  | timestamp t =>
      rw [← quoted_toText]
      exact readsLiteral_quoted rfl

/-- **A number that is not finite spoils the text it is written in.** -/
theorem breaks_of_not_hasLiteral {v : Value} (h : ¬ HasLiteral v) : Breaks ValueEnd v.toText.toList := by
  cases v with
  | float x =>
      by_cases hnan : x.isNaN = true
      · have htext : (Value.float x).toText = "NaN" := by
          rw [Value.toText, Binary64.toText, if_pos hnan]
        rw [htext]
        exact breaks_word (isWord_of_all rfl rfl) fun _ => rfl
      · have htext : TextValue (.float x) := Bool.eq_false_iff.mpr hnan
        exact (breaks_infinite rfl htext h).1
  | _ => exact absurd trivial h

/-- Every value is written as a text that is cut. -/
theorem cuts_toText (v : Value) : Cuts ValueEnd v.toText.toList := by
  by_cases h : HasLiteral v
  · exact (readsLiteral_reading h).cuts
  · exact (breaks_of_not_hasLiteral h).cuts

/-- **A criterion that is read has only values with a literal.** -/
theorem hasLiteral_of_parseFilter {c : WrittenCriterion} {path : String} {vs : List Value}
    (hpath : IsAttributePath path) (hc : c.path = writtenPath path) (hoperator : IsWord c.operator.toList)
    (hvalues : c.values = vs.map Value.toText) {spec : FilterSpec} (hparse : parseFilter c.text = .ok spec) :
    ∀ v ∈ vs, HasLiteral v := by
  have hcut : (Fragment.criterion c).Cut := by
    refine ⟨hc ▸ cuts_writtenPath hpath, hoperator, ?_⟩
    rw [hvalues, List.forall_mem_map]
    exact fun v _ => cuts_toText v
  intro v hv
  by_contra hnone
  refine hcut.not_broken_of_parseFilter hparse ⟨v.toText, ?_, breaks_of_not_hasLiteral hnone⟩
  rw [hvalues]
  exact List.mem_map_of_mem hv

/-! ## Paths that begin with a separator -/

/-- A colon before a word ends a word. -/
theorem wordEnd_colon_word {w : List Char} (hw : IsWord w) (rest : List Char) :
    WordEnd (':' :: (w ++ rest)) where
  head := by rintro c ⟨⟩; rfl
  scheme := by
    obtain ⟨c, tail, rfl, hc, -⟩ := hw
    rintro ⟨more, hmore⟩
    have hslash : '/' = c := (List.cons.inj (List.cons.inj hmore).2).1
    rw [← hslash] at hc
    cases hc

/-- A dot or a colon can begin nothing. -/
theorem readGroups_mark {size : Nat} {g : Group} {t : Token} {ts : List Token}
    (ht : t.kind = .dot ∨ t.kind = .colon) :
    readGroups size [] g (t :: ts) = .error (errorAt size .trailingInput (t :: ts)) := by
  have hword : t.kind ≠ .word := by rcases ht with h | h <;> rw [h] <;> decide
  rw [readGroups.eq_def]
  rcases ht with h | h <;> simp [h, isKeyword_of_kind hword]

/-- **A text that is read does not begin with a separator and a dot or a colon.** -/
theorem not_keyword_of_parseFilter {s : String} {w rest : List Char} {c : Char} {kind : TokenKind}
    (htext : s.toList = w ++ c :: rest) (hw : IsWord w) (hrest : WordEnd (c :: rest))
    (hc : punctuation? c = some kind) (hkind : kind = .dot ∨ kind = .colon) {spec : FilterSpec}
    (hparse : parseFilter s = .ok spec) :
    sameWord w "and".toList = false ∧ sameWord w "or".toList = false := by
  obtain ⟨ts, e, hcut, hread⟩ := exists_read_of_parseFilter hparse
  rw [tokens, htext, (isToken_word hw hrest).tokensFrom_eq] at hcut
  cases hmore : tokensFrom (0 + byteLength w) (c :: rest) with
  | error e =>
      rw [hmore] at hcut
      cases hcut
  | ok us =>
      rw [hmore] at hcut
      obtain ⟨us', -, rfl⟩ := mark_of_tokensFrom kind hc hmore
      obtain rfl := Except.ok.inj hcut
      -- behind a separator the dot or the colon would begin a term
      constructor
      · by_contra hand
        have hand' : Token.isKeyword ⟨.word, w, 0⟩ "and" = true := by
          rw [Bool.not_eq_false] at hand
          rw [Token.isKeyword, hand]
          rfl
        rw [readGroups_separator (.inr hand'), readGroups_mark hkind] at hread
        cases hread
      · by_contra hor
        have hor' : Token.isKeyword ⟨.word, w, 0⟩ "or" = true := by
          rw [Bool.not_eq_false] at hor
          rw [Token.isKeyword, hor]
          rfl
        rw [readGroups_or hor', readGroups_mark hkind] at hread
        cases hread

/-- A name that is a word of separators is written as it is. -/
theorem sameWord_hyphen {cs word : List Char} (hword : '_' ∉ lowerAscii word)
    (h : sameWord (cs.map hyphen) word = false) : sameWord cs word = false := by
  by_contra hsame
  rw [Bool.not_eq_false, sameWord, beq_iff_eq] at hsame
  have hself : cs.map hyphen = cs := by
    conv_rhs => rw [← List.map_id cs]
    refine List.map_congr_left fun c hc => if_neg fun hunder => hword ?_
    rw [← hsame, lowerAscii, ← hunder]
    exact List.mem_map.mpr ⟨c, hc, by rw [hunder]; rfl⟩
  rw [hself, sameWord, beq_eq_false_iff_ne] at h
  exact h hsame

/-- **A criterion that is read is on a path that does not begin with a separator.** -/
theorem isPathName_of_parseFilter {c : WrittenCriterion} {path : String} (hpath : IsAttributePath path)
    (hc : c.path = writtenPath path) (hoperator : IsWord c.operator.toList) {spec : FilterSpec}
    (hparse : parseFilter c.text = .ok spec) : IsPathName path := by
  obtain ⟨piece, pieces', hpieces⟩ := List.exists_cons_of_ne_nil (pieces_ne_nil '.' path.toList)
  have hsegments : writtenSegments path = piece.map hyphen :: pieces'.map (List.map hyphen) := by
    rw [writtenSegments, hpieces, List.map_cons]
  generalize pieces'.map (List.map hyphen) = others at hsegments
  have hfirst : IsWord (piece.map hyphen) :=
    hpath.isWord_of_mem _ (by rw [hsegments]; exact List.mem_cons_self)
  generalize htail : ':' :: (c.operator.toList ++ ([':'] ++
    [','].intercalate (c.values.map String.toList))) = tail
  have hend : WordEnd tail := htail ▸ wordEnd_colon_word hoperator _
  have htext : c.text.toList = piece.map hyphen ++ (dotted others ++ tail) := by
    rw [toList_text, hc, toList_writtenPath, hsegments, intercalate_dot, ← htail]
    simp
  have hwords : sameWord (piece.map hyphen) "and".toList = false ∧
      sameWord (piece.map hyphen) "or".toList = false := by
    have hend' : WordEnd (dotted others ++ tail) := wordEnd_dotted hend
    cases others with
    | nil =>
        rw [← htail] at htext hend'
        exact not_keyword_of_parseFilter htext hfirst hend' rfl (.inr rfl) hparse
    | cons second others => exact not_keyword_of_parseFilter htext hfirst hend' rfl (.inl rfl) hparse
  have hhead : ∀ s ∈ (Path.segments path).head?, s.toList = piece := by
    intro s hs
    rw [segments_eq, hpieces] at hs
    rw [← Option.some.inj hs, String.toList_ofList]
  exact ⟨hpath, fun s hs => hhead s hs ▸ sameWord_hyphen (by decide) hwords.1,
    fun s hs => hhead s hs ▸ sameWord_hyphen (by decide) hwords.2⟩

end EntityStore.QueryText
