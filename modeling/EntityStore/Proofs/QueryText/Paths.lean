import EntityStore.Proofs.QueryText.Reading
import EntityStore.QueryText.Writer
import EntityStore.Schema.Path

/-!
# Paths in query text

Attribute names are written with hyphens for underscores and read with underscores for hyphens.
The names themselves have no hyphens, so nothing is lost on the way. What cannot be written at
all is a path that begins with a word the reader takes for a separator, in any case of letters.
-/

namespace EntityStore.QueryText

open Text

/-- An attribute name: a letter, then letters, digits and underscores. -/
def IsIdentifier (cs : List Char) : Prop :=
  ∃ c tail, cs = c :: tail ∧ c.isAlpha = true ∧ ∀ x ∈ tail, x.isAlphanum = true ∨ x = '_'

/-- A path of attribute names. -/
def IsAttributePath (path : String) : Prop :=
  ∀ segment ∈ Path.segments path, IsIdentifier segment.toList

/-- A path that can be written: attribute names, the first of which does not read as a
separator. -/
structure IsPathName (path : String) : Prop where
  identifiers : ∀ segment ∈ Path.segments path, IsIdentifier segment.toList
  notAnd : ∀ first ∈ (Path.segments path).head?, sameWord first.toList "and".toList = false
  notOr : ∀ first ∈ (Path.segments path).head?, sameWord first.toList "or".toList = false

instance (cs : List Char) : Decidable (IsIdentifier cs) :=
  match cs with
  | [] => isFalse (fun ⟨_, _, h, _⟩ => nomatch h)
  | c :: tail =>
    decidable_of_iff ((c.isAlpha && tail.all fun x => x.isAlphanum || x == '_') = true)
      ⟨fun h => ⟨c, tail, rfl, by simpa using h⟩, fun ⟨_, _, heq, h⟩ => by cases heq; simpa using h⟩

instance (path : String) : Decidable (IsAttributePath path) :=
  inferInstanceAs (Decidable (∀ segment ∈ Path.segments path, IsIdentifier segment.toList))

instance (path : String) : Decidable (IsPathName path) :=
  decidable_of_iff (((Path.segments path).all fun s => decide (IsIdentifier s.toList)) = true ∧
      (∀ first ∈ (Path.segments path).head?, sameWord first.toList "and".toList = false) ∧
      ∀ first ∈ (Path.segments path).head?, sameWord first.toList "or".toList = false)
    ⟨fun h => ⟨by simpa using h.1, h.2.1, h.2.2⟩,
      fun h => ⟨by simpa using h.identifiers, h.notAnd, h.notOr⟩⟩

/-! ## Hyphens for underscores -/

/-- How a character of a path is written. -/
def hyphen (c : Char) : Char := if c = '_' then '-' else c

/-- How a character of a path is read. -/
def underscore (c : Char) : Char := if c = '-' then '_' else c

theorem underscore_hyphen {c : Char} (hc : c ≠ '-') : underscore (hyphen c) = c := by
  rw [hyphen]
  split
  case isTrue h =>
    rw [h]
    rfl
  case isFalse => rw [underscore, if_neg hc]

theorem IsIdentifier.no_hyphen {cs : List Char} (h : IsIdentifier cs) : ∀ c ∈ cs, c ≠ '-' := by
  obtain ⟨c, tail, rfl, hc, htail⟩ := h
  intro x hx
  rcases List.mem_cons.mp hx with rfl | hx
  · exact ne_of_class hc rfl
  · rcases htail x hx with hx | rfl
    · exact ne_of_class hx rfl
    · decide

theorem map_underscore_hyphen {cs : List Char} (h : ∀ c ∈ cs, c ≠ '-') :
    (cs.map hyphen).map underscore = cs := by
  rw [List.map_map]
  conv_rhs => rw [← List.map_id cs]
  exact List.map_congr_left fun c hc => underscore_hyphen (h c hc)

/-- An attribute name is written as a word. -/
theorem IsIdentifier.isWord {cs : List Char} (h : IsIdentifier cs) : IsWord (cs.map hyphen) := by
  obtain ⟨c, tail, rfl, hc, htail⟩ := h
  have hne : c ≠ '_' := ne_of_class hc rfl
  refine ⟨c, tail.map hyphen, by rw [List.map_cons, hyphen, if_neg hne], hc, ?_⟩
  rw [List.forall_mem_map]
  intro x hx
  rw [hyphen]
  split
  · rfl
  · rcases htail x hx with hx | rfl
    · simp [isWordPart, hx]
    · rfl

/-- Putting marks into a name does not make a word without that mark of it. -/
theorem lowerAscii_of_map {f : Char → Char} {mark : Char} (hf : ∀ c, f c = c ∨ f c = mark)
    (hmark : mark.toLower = mark) {cs word : List Char} (hword : mark ∉ word)
    (h : lowerAscii (cs.map f) = word) : lowerAscii cs = word := by
  induction cs generalizing word with
  | nil => exact h
  | cons c cs ih =>
      subst h
      -- a character that became the mark would be a mark in the word
      have hc : f c = c := by
        rcases hf c with hc | hc
        · exact hc
        · refine absurd ?_ hword
          rw [lowerAscii, List.map_cons, List.map_cons, hc, hmark]
          exact List.mem_cons_self
      have hrest := ih (fun hmem => hword (List.mem_cons_of_mem _ hmem)) rfl
      rw [lowerAscii, List.map_cons, ← lowerAscii, hrest, List.map_cons, hc]
      rfl

/-- Writing and reading do not make a word of separators out of a name that is none. -/
theorem sameWord_map {f : Char → Char} {mark : Char} (hf : ∀ c, f c = c ∨ f c = mark)
    (hmark : mark.toLower = mark) {cs word : List Char} (hword : mark ∉ lowerAscii word)
    (h : sameWord cs word = false) : sameWord (cs.map f) word = false := by
  rw [sameWord, beq_eq_false_iff_ne] at h ⊢
  exact fun heq => h (lowerAscii_of_map hf hmark hword heq)

theorem hyphen_eq (c : Char) : hyphen c = c ∨ hyphen c = '-' := by
  unfold hyphen
  split
  · exact .inr rfl
  · exact .inl rfl

theorem underscore_eq (c : Char) : underscore c = c ∨ underscore c = '_' := by
  unfold underscore
  split
  · exact .inr rfl
  · exact .inl rfl

/-! ## Whole paths -/

/-- The segments of a path as they are written. -/
def writtenSegments (path : String) : List (List Char) :=
  (pieces '.' path.toList).map (List.map hyphen)

theorem segments_eq (path : String) :
    Path.segments path = (pieces '.' path.toList).map String.ofList := rfl

theorem map_dotted (f : Char → Char) (hf : f '.' = '.') (segments : List (List Char)) :
    (dotted segments).map f = dotted (segments.map (List.map f)) := by
  induction segments with
  | nil => rfl
  | cons first rest ih =>
      rw [dotted] at ih ⊢
      simp only [List.flatMap_cons, List.cons_append, List.map_cons, List.map_append, hf, ih]
      simp [dotted]

theorem map_intercalate_dot (f : Char → Char) (hf : f '.' = '.') {segments : List (List Char)}
    (hne : segments ≠ []) :
    (['.'].intercalate segments).map f = ['.'].intercalate (segments.map (List.map f)) := by
  obtain ⟨first, rest, rfl⟩ := List.exists_cons_of_ne_nil hne
  rw [intercalate_dot, List.map_append, map_dotted f hf, List.map_cons, intercalate_dot]

/-- A path is written segment by segment. -/
theorem toList_writtenPath (path : String) :
    (writtenPath path).toList = ['.'].intercalate (writtenSegments path) := by
  rw [writtenPath, String.toList_ofList, writtenSegments,
    ← map_intercalate_dot hyphen rfl (pieces_ne_nil '.' path.toList), intercalate_pieces]
  rfl

theorem hyphen_eq_dot {c : Char} : hyphen c = '.' ↔ c = '.' := by
  rw [hyphen]
  split
  case isTrue h =>
    rw [h]
    decide
  case isFalse => exact Iff.rfl

theorem pieces_map_hyphen (cs : List Char) :
    pieces '.' (cs.map hyphen) = (pieces '.' cs).map (List.map hyphen) := by
  induction cs with
  | nil => rfl
  | cons c cs ih =>
      rw [List.map_cons, pieces, pieces, ih]
      by_cases hc : c = '.'
      · rw [if_pos hc, if_pos (hyphen_eq_dot.mpr hc)]
        rfl
      · rw [if_neg hc, if_neg (hc ∘ hyphen_eq_dot.mp)]
        cases pieces '.' cs <;> rfl

/-- Segments are read with underscores for their hyphens. -/
theorem toList_attributePath (segments : List (List Char)) :
    (attributePath (segments.map String.ofList)).toList
      = ['.'].intercalate (segments.map (List.map underscore)) := by
  have hfun : ((String.toList ∘ fun s : String => String.ofList (s.toList.map fun c =>
      if c = '-' then '_' else c)) ∘ String.ofList) = List.map underscore := by
    funext s
    simp [Function.comp_apply, underscore]
  rw [attributePath, String.toList_intercalate, List.map_map, List.map_map, hfun]
  rfl

namespace IsAttributePath

variable {path : String}

theorem piece_isIdentifier (h : IsAttributePath path) :
    ∀ s ∈ pieces '.' path.toList, IsIdentifier s := by
  intro s hs
  have := h (String.ofList s) (List.mem_map_of_mem hs)
  rwa [String.toList_ofList] at this

/-- **A written path reads back.** -/
theorem attributePath_eq (h : IsAttributePath path) :
    attributePath ((writtenSegments path).map String.ofList) = path := by
  have hback : (writtenSegments path).map (List.map underscore) = pieces '.' path.toList := by
    rw [writtenSegments, List.map_map]
    conv_rhs => rw [← List.map_id (pieces '.' path.toList)]
    exact List.map_congr_left fun s hs =>
      map_underscore_hyphen (h.piece_isIdentifier s hs).no_hyphen
  rw [← String.toList_inj, toList_attributePath, hback]
  exact intercalate_pieces '.' path.toList

/-- The words a path is written with. -/
theorem isWord_of_mem (h : IsAttributePath path) : ∀ w ∈ writtenSegments path, IsWord w := by
  rw [writtenSegments, List.forall_mem_map]
  exact fun s hs => (h.piece_isIdentifier s hs).isWord

/-- Different paths are written differently. -/
theorem writtenPath_inj {other : String} (h : IsAttributePath path) (h' : IsAttributePath other)
    (heq : writtenPath path = writtenPath other) : path = other := by
  have hsegments : writtenSegments path = writtenSegments other := by
    have hlist := congrArg String.toList heq
    rw [writtenPath, writtenPath, String.toList_ofList, String.toList_ofList] at hlist
    rw [writtenSegments, writtenSegments, ← pieces_map_hyphen, ← pieces_map_hyphen]
    exact congrArg (pieces '.') hlist
  rw [← h.attributePath_eq, ← h'.attributePath_eq, hsegments]

theorem ne_empty (h : IsAttributePath path) : path ≠ "" := by
  rintro rfl
  obtain ⟨c, tail, hnil, -⟩ := h.piece_isIdentifier [] (by decide)
  cases hnil

end IsAttributePath

theorem exists_writtenSegments (path : String) :
    ∃ first others, writtenSegments path = first :: others := by
  obtain ⟨first, others, hp⟩ := List.exists_cons_of_ne_nil (pieces_ne_nil '.' path.toList)
  exact ⟨first.map hyphen, others.map (List.map hyphen), by rw [writtenSegments, hp]; rfl⟩

namespace IsPathName

variable {path : String}

theorem isAttributePath (h : IsPathName path) : IsAttributePath path := h.identifiers

/-- The words a path is written with, of which the first is no separator. -/
theorem exists_words (h : IsPathName path) :
    ∃ first others, writtenSegments path = first :: others ∧ IsWord first ∧
      (∀ w ∈ others, IsWord w) ∧ sameWord first "and".toList = false ∧
      sameWord first "or".toList = false := by
  obtain ⟨first, others, hp⟩ := List.exists_cons_of_ne_nil (pieces_ne_nil '.' path.toList)
  have hsegments : writtenSegments path = first.map hyphen :: others.map (List.map hyphen) := by
    rw [writtenSegments, hp]
    rfl
  have hwords := h.isAttributePath.isWord_of_mem
  rw [hsegments] at hwords
  have hhead : (Path.segments path).head? = some (String.ofList first) := by
    rw [segments_eq, hp]
    rfl
  have hand := h.notAnd _ hhead
  have hor := h.notOr _ hhead
  rw [String.toList_ofList] at hand hor
  exact ⟨first.map hyphen, others.map (List.map hyphen), hsegments, hwords _ List.mem_cons_self,
    fun w hw => hwords w (List.mem_cons_of_mem _ hw),
    sameWord_map hyphen_eq rfl (by decide) hand, sameWord_map hyphen_eq rfl (by decide) hor⟩

end IsPathName

/-! ## Paths that have been read -/

/-- A word is read as an attribute name. -/
theorem IsWord.isIdentifier {w : List Char} (h : IsWord w) : IsIdentifier (w.map underscore) := by
  obtain ⟨c, tail, rfl, hc, htail⟩ := h
  have hne : c ≠ '-' := ne_of_class hc rfl
  refine ⟨c, tail.map underscore, by rw [List.map_cons, underscore, if_neg hne], hc, ?_⟩
  rw [List.forall_mem_map]
  intro x hx
  have hpart : (x.isAlphanum = true ∨ x = '_') ∨ x = '-' := by
    simpa [isWordPart] using htail x hx
  rw [underscore]
  split
  case isTrue => exact .inr rfl
  case isFalse hx => exact hpart.resolve_right hx

theorem IsIdentifier.no_dot {cs : List Char} (h : IsIdentifier cs) : '.' ∉ cs := by
  obtain ⟨c, tail, rfl, hc, htail⟩ := h
  intro hmem
  rcases List.mem_cons.mp hmem with rfl | hmem
  · cases hc
  · rcases htail _ hmem with hdot | hdot
    · cases hdot
    · cases hdot

/-- The segments of a path that has been read are its words. -/
theorem segments_attributePath {words : List (List Char)} (hne : words ≠ [])
    (hwords : ∀ w ∈ words, IsWord w) :
    Path.segments (attributePath (words.map String.ofList))
      = words.map fun w => String.ofList (w.map underscore) := by
  have hdots : ∀ p ∈ words.map (List.map underscore), '.' ∉ p := by
    rw [List.forall_mem_map]
    exact fun w hw => (hwords w hw).isIdentifier.no_dot
  rw [segments_eq, toList_attributePath, pieces_intercalate (by simpa using hne) hdots, List.map_map]
  rfl

/-- **A path that has been read is one of attribute names.** -/
theorem isAttributePath_attributePath {words : List (List Char)} (hne : words ≠ [])
    (hwords : ∀ w ∈ words, IsWord w) : IsAttributePath (attributePath (words.map String.ofList)) := by
  unfold IsAttributePath
  rw [segments_attributePath hne hwords, List.forall_mem_map]
  intro w hw
  rw [String.toList_ofList]
  exact (hwords w hw).isIdentifier

/-- **A path that has been read can be written.** -/
theorem isPathName_attributePath {first : List Char} {others : List (List Char)}
    (hwords : ∀ w ∈ first :: others, IsWord w) (hand : sameWord first "and".toList = false)
    (hor : sameWord first "or".toList = false) :
    IsPathName (attributePath ((first :: others).map String.ofList)) := by
  have hhead : ∀ word : List Char, '_' ∉ lowerAscii word → sameWord first word = false →
      ∀ s ∈ (Path.segments (attributePath ((first :: others).map String.ofList))).head?,
        sameWord s.toList word = false := by
    intro word hword hsame s hs
    rw [segments_attributePath (by simp) hwords] at hs
    rw [← Option.some.inj hs, String.toList_ofList]
    exact sameWord_map underscore_eq rfl hword hsame
  exact ⟨isAttributePath_attributePath (by simp) hwords, hhead _ (by decide) hand,
    hhead _ (by decide) hor⟩

end EntityStore.QueryText
