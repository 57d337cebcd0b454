import EntityStore.Select.Pattern
import EntityStore.Text.Blank

/-!
# Patterns made of escaped texts

A query asks for a substring with a pattern: the escaped text, with `%` where other text may
stand. Whatever the text holds, an escaped text accepts itself and nothing else, so the three
patterns below are exactly the prefix, the suffix and the infix relation.

That is said of the matcher first, which tries one end of the text after the other where a percent
sign stands. The rules of LIKE know of no such search: they say what a pattern may take up, sign by
sign. The matcher finds a match exactly where these rules give one.
-/

namespace EntityStore.Pattern

/-- A character without a meaning of its own stands for itself. -/
theorem accepts_plain_cons {c : Char} (h : isSpecial c = false) (pattern text : List Char) :
    accepts (c :: pattern) text
      = match text with
        | d :: text => c == d && accepts pattern text
        | [] => false := by
  have hne : c ≠ '\\' ∧ c ≠ '%' ∧ c ≠ '_' := by
    simpa [isSpecial, and_assoc] using h
  obtain ⟨h1, h2, h3⟩ := hne
  rw [accepts.eq_def]
  split
  case h_6 heq =>
    obtain ⟨rfl, rfl⟩ := List.cons.inj heq
    rfl
  all_goals simp_all

/-- A backslash makes any character stand for itself. -/
theorem accepts_backslash_cons (c : Char) (pattern text : List Char) :
    accepts ('\\' :: c :: pattern) text
      = match text with
        | d :: text => c == d && accepts pattern text
        | [] => false := by
  rw [accepts.eq_def]
  rfl

/-- An escaped text in front of a pattern takes that text off. -/
theorem accepts_escape_append (needle pattern text : List Char) :
    accepts (escape needle ++ pattern) text
      = (needle.isPrefixOf text && accepts pattern (text.drop needle.length)) := by
  induction needle generalizing text with
  | nil => simp [escape]
  | cons c rest ih =>
    have hstep : accepts (escape (c :: rest) ++ pattern) text
        = match text with
          | d :: text => c == d && accepts (escape rest ++ pattern) text
          | [] => false := by
      rw [escape]
      by_cases hc : isSpecial c = true
      · rw [if_pos hc, List.cons_append, List.cons_append]
        exact accepts_backslash_cons c _ _
      · rw [if_neg hc, List.cons_append]
        exact accepts_plain_cons (by simpa using hc) _ _
    rw [hstep]
    cases text with
    | nil => simp
    | cons d text =>
      dsimp only
      rw [ih text, List.isPrefixOf_cons_cons, List.length_cons, List.drop_succ_cons, Bool.and_assoc]

@[simp] theorem accepts_nil (text : List Char) : accepts [] text = text.isEmpty := by
  rw [accepts]

/-- A percent sign at the end accepts whatever is left. -/
theorem accepts_percent (text : List Char) : accepts ['%'] text = true := by
  rw [accepts, List.any_eq_true]
  refine ⟨[], ?_, rfl⟩
  induction text with
  | nil => simp [suffixes]
  | cons c rest ih => simp [suffixes, ih]

theorem mem_suffixes {rest text : List Char} : rest ∈ suffixes text ↔ rest <:+ text := by
  induction text with
  | nil => simp [suffixes]
  | cons c text ih => rw [suffixes, List.mem_cons, ih, List.suffix_cons_iff]

/-- A percent sign in front skips some of the text. -/
theorem accepts_percent_cons (pattern text : List Char) :
    accepts ('%' :: pattern) text = true ↔ ∃ rest, rest <:+ text ∧ accepts pattern rest = true := by
  rw [accepts, List.any_eq_true]
  simp only [mem_suffixes]

/-- **The prefix pattern.** -/
theorem accepts_startsWith (needle text : List Char) :
    accepts (escape needle ++ ['%']) text = needle.isPrefixOf text := by
  rw [accepts_escape_append, accepts_percent, Bool.and_true]

/-- An escaped text accepts itself only. -/
theorem accepts_escape (needle text : List Char) :
    accepts (escape needle) text = true ↔ text = needle := by
  have h := accepts_escape_append needle [] text
  rw [List.append_nil] at h
  rw [h, accepts_nil, Bool.and_eq_true, List.isPrefixOf_iff_prefix, List.isEmpty_iff,
    List.drop_eq_nil_iff]
  constructor
  · intro ⟨hpre, hlen⟩
    exact (hpre.eq_of_length_le hlen).symm
  · intro ht
    rw [ht]
    exact ⟨List.prefix_rfl, Nat.le_refl _⟩

/-- **The suffix pattern.** -/
theorem accepts_endsWith (needle text : List Char) :
    accepts ('%' :: escape needle) text = needle.isSuffixOf text := by
  rw [Bool.eq_iff_iff, accepts_percent_cons, List.isSuffixOf_iff_suffix]
  simp only [accepts_escape, exists_eq_right]

/-- **The infix pattern.** -/
theorem accepts_contains (needle text : List Char) :
    accepts ('%' :: (escape needle ++ ['%'])) text = Text.occursIn needle text := by
  rw [Bool.eq_iff_iff, accepts_percent_cons, Text.occursIn_iff]
  simp only [accepts_startsWith, List.isPrefixOf_iff_prefix]
  constructor
  · intro ⟨rest, hsuf, hpre⟩
    exact List.IsInfix.trans hpre.isInfix hsuf.isInfix
  · intro ⟨front, back, htext⟩
    refine ⟨needle ++ back, ?_, List.prefix_append _ _⟩
    rw [← htext, List.append_assoc]
    exact List.suffix_append _ _

/-! ## The rules of LIKE -/

/-- A text matches a pattern, by the rules of LIKE with the backslash for its escape character. -/
inductive Likes : List Char → List Char → Prop
  | nil : Likes [] []
  /-- A percent sign takes up any text. -/
  | percent {pattern text : List Char} (skipped : List Char) (rest : Likes pattern text) :
      Likes ('%' :: pattern) (skipped ++ text)
  /-- An underscore takes up any one character. -/
  | underscore {pattern text : List Char} (c : Char) (rest : Likes pattern text) :
      Likes ('_' :: pattern) (c :: text)
  /-- Whatever stands after a backslash takes up itself. -/
  | escaped {pattern text : List Char} (c : Char) (rest : Likes pattern text) :
      Likes ('\\' :: c :: pattern) (c :: text)
  | plain {pattern text : List Char} {c : Char} (hc : isSpecial c = false)
      (rest : Likes pattern text) : Likes (c :: pattern) (c :: text)

theorem Likes.accepts {pattern text : List Char} (h : Likes pattern text) :
    accepts pattern text = true := by
  induction h with
  | nil => rfl
  | percent skipped _ ih =>
    exact (accepts_percent_cons _ _).mpr ⟨_, List.suffix_append _ _, ih⟩
  | underscore c _ ih =>
    rw [Pattern.accepts]
    exact ih
  | escaped c _ ih =>
    rw [accepts_backslash_cons]
    simpa using ih
  | plain hc _ ih =>
    rw [accepts_plain_cons hc]
    simpa using ih

/-- What the matcher accepts is a match. By induction on its search. -/
theorem likes_of_accepts {pattern text : List Char} (h : accepts pattern text = true) :
    Likes pattern text := by
  fun_induction accepts pattern text with
  | case1 text =>
    rw [List.isEmpty_iff.mp h]
    exact .nil
  | case2 => cases h
  | case3 c pattern d text ih =>
    obtain ⟨heq, hrest⟩ := Bool.and_eq_true_iff.mp h
    rw [← eq_of_beq heq]
    exact .escaped c (ih hrest)
  | case4 => cases h
  | case5 pattern text ih =>
    obtain ⟨rest, hmem, hrest⟩ := List.any_eq_true.mp h
    obtain ⟨skipped, rfl⟩ := mem_suffixes.mp hmem
    exact .percent skipped (ih rest hrest)
  | case6 pattern d text ih => exact .underscore d (ih h)
  | case7 => cases h
  | case8 c pattern hend hescape hpercent hunderscore d text ih =>
    obtain ⟨heq, hrest⟩ := Bool.and_eq_true_iff.mp h
    -- a backslash would stand at the end of the pattern, or in front of a character
    have hbackslash : c ≠ '\\' := by
      intro hc
      cases pattern with
      | nil => exact hend hc rfl
      | cons e pattern => exact hescape e pattern hc rfl
    have hplain : isSpecial c = false := by
      simp only [isSpecial, Bool.or_eq_false_iff, beq_eq_false_iff_ne]
      exact ⟨⟨hbackslash, hpercent⟩, hunderscore⟩
    rw [← eq_of_beq heq]
    exact .plain hplain (ih hrest)
  | case9 => cases h

/-- **The matcher decides the rules.** -/
theorem accepts_iff_likes {pattern text : List Char} :
    accepts pattern text = true ↔ Likes pattern text :=
  ⟨likes_of_accepts, Likes.accepts⟩

/-! ## Texts within texts -/

theorem toList_escapeText (s : String) : (escapeText s).toList = escape s.toList :=
  String.toList_ofList

theorem toList_prefix_iff {part whole : String} :
    part.toList <+: whole.toList ↔ ∃ after, whole = part ++ after := by
  constructor
  · intro ⟨after, h⟩
    refine ⟨String.ofList after, String.toList_inj.mp ?_⟩
    rw [String.toList_append, String.toList_ofList, h]
  · intro ⟨after, h⟩
    rw [h, String.toList_append]
    exact List.prefix_append _ _

theorem toList_suffix_iff {part whole : String} :
    part.toList <:+ whole.toList ↔ ∃ before, whole = before ++ part := by
  constructor
  · intro ⟨before, h⟩
    refine ⟨String.ofList before, String.toList_inj.mp ?_⟩
    rw [String.toList_append, String.toList_ofList, h]
  · intro ⟨before, h⟩
    rw [h, String.toList_append]
    exact List.suffix_append _ _

theorem toList_infix_iff {part whole : String} :
    part.toList <:+: whole.toList ↔ ∃ before after, whole = before ++ part ++ after := by
  constructor
  · intro ⟨before, after, h⟩
    refine ⟨String.ofList before, String.ofList after, String.toList_inj.mp ?_⟩
    rw [String.toList_append, String.toList_append, String.toList_ofList, String.toList_ofList, h]
  · intro ⟨before, after, h⟩
    rw [h, String.toList_append, String.toList_append]
    exact ⟨_, _, rfl⟩

/-- **An escaped text takes up itself and nothing else**, whatever characters it is made of. So with
a percent sign after it, before it or on both sides it matches the texts that begin with it, end with
it or contain it, and on its own the one text that it is. -/
theorem likes_escapeText (needle text : String) :
    (Likes (escapeText needle ++ "%").toList text.toList ↔ ∃ after, text = needle ++ after) ∧
      (Likes ("%" ++ escapeText needle).toList text.toList ↔ ∃ before, text = before ++ needle) ∧
      (Likes ("%" ++ escapeText needle ++ "%").toList text.toList ↔
        ∃ before after, text = before ++ needle ++ after) ∧
      (Likes (escapeText needle).toList text.toList ↔ text = needle) := by
  have hpercent : "%".toList = ['%'] := rfl
  simp only [← accepts_iff_likes, String.toList_append, toList_escapeText, hpercent,
    List.cons_append, List.nil_append]
  refine ⟨?_, ?_, ?_, ?_⟩
  · rw [accepts_startsWith, List.isPrefixOf_iff_prefix, toList_prefix_iff]
  · rw [accepts_endsWith, List.isSuffixOf_iff_suffix, toList_suffix_iff]
  · rw [accepts_contains, Text.occursIn_iff, toList_infix_iff]
  · rw [accepts_escape, String.toList_inj]

end EntityStore.Pattern
