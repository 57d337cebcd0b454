import EntityStore.Proofs.QueryText.Infinite
import EntityStore.Proofs.QueryText.Shrinking

/-!
# Filters with infinite numbers

The writer puts texts together without looking into them, so what is cut stays cut, and what spoils
a part spoils the whole. **A filter that comes from a text and holds an infinite number is written
as a text that is not read.**
-/

namespace EntityStore.QueryText

open Text

/-! ## Written criteria -/

theorem cuts_word {w : List Char} (h : IsWord w) : Cuts WordEnd w :=
  fun position _ _ hrest hts => ⟨[⟨.word, w, position⟩], (isToken_word h hrest).tokensFrom_ok hts⟩

/-- A path is cut into its words and dots. -/
theorem cuts_writtenPath {path : String} (h : IsAttributePath path) :
    Cuts WordEnd (writtenPath path).toList := by
  rw [toList_writtenPath]
  exact cuts_intercalate (fun _ hrest => hrest) wordEnd_dot
    (cuts_mark (c := '.') rfl) fun w hw => cuts_word (h.isWord_of_mem w hw)

/-- A written criterion whose parts are cut. -/
structure WrittenCriterion.Cut (c : WrittenCriterion) : Prop where
  path : Cuts WordEnd c.path.toList
  operator : IsWord c.operator.toList
  values : ∀ v ∈ c.values, Cuts ValueEnd v.toList

/-- A written criterion with a literal that spoils it. -/
def WrittenCriterion.Broken (c : WrittenCriterion) : Prop := ∃ v ∈ c.values, Breaks ValueEnd v.toList

theorem toList_text (c : WrittenCriterion) :
    c.text.toList = c.path.toList ++ ([':'] ++ (c.operator.toList ++ ([':'] ++
      [','].intercalate (c.values.map String.toList)))) := by
  simp [WrittenCriterion.text]

/-- A colon that is followed by something that can be cut ends a word. -/
theorem wordEnd_of_colon {position : Nat} {cs rest : List Char} {ts : List Token}
    (h : tokensFrom position ([':'] ++ cs ++ rest) = .ok ts) : WordEnd ([':'] ++ cs ++ rest) :=
  wordEnd_of_tokensFrom h (by rintro c ⟨⟩; rfl)

theorem WrittenCriterion.Cut.cuts_values {c : WrittenCriterion} (h : c.Cut) :
    Cuts Ends ([','].intercalate (c.values.map String.toList)) ∧
      (c.Broken → Breaks Ends ([','].intercalate (c.values.map String.toList))) := by
  have hcuts : ∀ cs ∈ c.values.map String.toList, Cuts ValueEnd cs := List.forall_mem_map.mpr h.values
  have hcomma : Cuts (fun _ => True) [','] := cuts_mark rfl
  refine ⟨cuts_intercalate (fun _ => .ends) .comma hcomma hcuts, fun ⟨v, hv, hbroken⟩ => ?_⟩
  exact breaks_intercalate (fun _ => .ends) .comma hcomma hcuts ⟨_, List.mem_map_of_mem hv, hbroken⟩

theorem WrittenCriterion.Cut.cuts_text {c : WrittenCriterion} (h : c.Cut) :
    Cuts Ends c.text.toList ∧ (c.Broken → Breaks Ends c.text.toList) := by
  obtain ⟨hcuts, hbreaks⟩ := h.cuts_values
  have hcolon : Cuts (fun _ => True) [':'] := cuts_mark rfl
  have hoperator := cuts_word h.operator
  rw [toList_text]
  constructor
  · refine h.path.append (hcolon.append (hoperator.append (hcolon.append hcuts ?_) ?_) ?_) ?_
    · exact fun _ _ _ _ _ => trivial
    · exact fun _ _ _ _ => wordEnd_of_colon
    · exact fun _ _ _ _ _ => trivial
    · exact fun _ _ _ _ => wordEnd_of_colon
  · intro hbroken
    refine ((((hbreaks hbroken).prepend hcolon ?_).prepend hoperator ?_).prepend hcolon ?_).prepend h.path ?_
    · exact fun _ _ _ _ _ => trivial
    · exact fun _ _ _ _ => wordEnd_of_colon
    · exact fun _ _ _ _ _ => trivial
    · exact fun _ _ _ _ => wordEnd_of_colon

/-! ## Fragments -/

/-- A fragment whose text is cut. -/
def Fragment.Cut : Fragment → Prop
  | .criterion c => c.Cut
  | .and text | .or text => Cuts Ends text.toList

/-- A fragment that is spoiled. -/
def Fragment.Broken : Fragment → Prop
  | .criterion c => c.Broken
  | .and text | .or text => Breaks Ends text.toList

theorem Fragment.Cut.cuts_text {f : Fragment} (h : f.Cut) :
    Cuts Ends f.text.toList ∧ (f.Broken → Breaks Ends f.text.toList) := by
  cases f with
  | criterion c => exact WrittenCriterion.Cut.cuts_text h
  | and text => exact ⟨h, fun hb => hb⟩
  | or text => exact ⟨h, fun hb => hb⟩

theorem Fragment.Cut.cuts_conjunctText {f : Fragment} (h : f.Cut) :
    Cuts Ends f.conjunctText.toList ∧ (f.Broken → Breaks Ends f.conjunctText.toList) := by
  cases f with
  | criterion c => exact WrittenCriterion.Cut.cuts_text h
  | and text => exact ⟨h, fun hb => hb⟩
  | or text =>
      have hclose : Cuts (fun _ => True) [')'] := cuts_mark rfl
      have hopen : Cuts (fun _ => True) ['('] := cuts_mark rfl
      have hafter : ∀ (position : Nat) (rest : List Char) (ts : List Token), Ends rest →
          tokensFrom position ([')'] ++ rest) = .ok ts → Ends ([')'] ++ rest) :=
        fun _ rest _ _ _ => .close rest
      have hclose' : Cuts Ends [')'] := fun position rest ts _ hts => hclose position rest ts trivial hts
      rw [Fragment.conjunctText, toList_parens, ← List.singleton_append]
      constructor
      · exact hopen.append (h.append hclose' hafter) fun _ _ _ _ _ => trivial
      · intro hb
        exact (Breaks.append hb hclose' hafter).prepend hopen fun _ _ _ _ _ => trivial

/-- **A fragment that is read is not spoiled.** -/
theorem Fragment.Cut.not_broken_of_parseFilter {f : Fragment} (h : f.Cut) {spec : FilterSpec}
    (hparse : parseFilter f.text = .ok spec) : ¬ f.Broken := by
  intro hbroken
  obtain ⟨toks, htoks, horder⟩ := h.cuts_text.2 hbroken 0 [] [] .stop (by rw [tokensFrom])
  obtain ⟨ts, hts, horder'⟩ := orderly_of_parseFilter hparse
  rw [List.append_nil] at htoks
  rw [tokens, htoks] at hts
  exact horder (Except.ok.inj hts ▸ horder')

/-- Merging keeps what is cut and what is spoiled. -/
theorem cut_of_merge? {f g m : Fragment} (h : merge? f g = some m) (hf : f.Cut) (hg : g.Cut) :
    m.Cut ∧ (f.Broken ∨ g.Broken → m.Broken) := by
  cases f with
  | and text => cases h
  | or text => cases h
  | criterion a =>
      cases g with
      | and text => cases h
      | or text => cases h
      | criterion b =>
          rw [merge?] at h
          split at h
          case isFalse => cases h
          case isTrue =>
            obtain rfl := Option.some.inj h
            have ha : a.Cut := hf
            have hb : b.Cut := hg
            refine ⟨⟨ha.path, ha.operator, fun v hv => ?_⟩, ?_⟩
            · rcases List.mem_append.mp hv with hv | hv
              · exact ha.values v hv
              · exact hb.values v hv
            · rintro (⟨v, hv, hbroken⟩ | ⟨v, hv, hbroken⟩)
              · exact ⟨v, List.mem_append_left _ hv, hbroken⟩
              · exact ⟨v, List.mem_append_right _ hv, hbroken⟩

/-- **Merging neighbours keeps what is cut and what is spoiled.** By induction on the fragments to
come. -/
theorem cut_of_mergeAll {f : Fragment} {fs : List Fragment} (h : ∀ g ∈ f :: fs, g.Cut) :
    (∀ g ∈ mergeAll f fs, g.Cut) ∧ ((∃ g ∈ f :: fs, g.Broken) → ∃ g ∈ mergeAll f fs, g.Broken) := by
  induction fs generalizing f with
  | nil => exact ⟨h, fun hbroken => hbroken⟩
  | cons g fs ih =>
      have hf := h f List.mem_cons_self
      have hg := h g (List.mem_cons_of_mem _ List.mem_cons_self)
      have hfs := fun k hk => h k (List.mem_cons_of_mem _ (List.mem_cons_of_mem _ hk))
      rw [mergeAll]
      split
      case h_1 both hboth =>
        obtain ⟨hcut, hspoiled⟩ := cut_of_merge? hboth hf hg
        obtain ⟨hall, hsome⟩ := ih (f := both) fun k hk =>
          (List.mem_cons.mp hk).elim (fun heq => heq ▸ hcut) (hfs k)
        -- what spoiled either of the two spoils the merged one
        refine ⟨hall, fun hbroken => hsome ?_⟩
        obtain ⟨k, hk, hbroken⟩ := hbroken
        rcases List.mem_cons.mp hk with rfl | hk
        · exact ⟨both, List.mem_cons_self, hspoiled (.inl hbroken)⟩
        · rcases List.mem_cons.mp hk with rfl | hk
          · exact ⟨both, List.mem_cons_self, hspoiled (.inr hbroken)⟩
          · exact ⟨k, List.mem_cons_of_mem _ hk, hbroken⟩
      case h_2 =>
        obtain ⟨hall, hsome⟩ := ih fun k hk => h k (List.mem_cons_of_mem _ hk)
        refine ⟨fun k hk => ?_, fun hbroken => ?_⟩
        · rcases List.mem_cons.mp hk with rfl | hk
          · exact hf
          · exact hall k hk
        · obtain ⟨k, hk, hbroken⟩ := hbroken
          rcases List.mem_cons.mp hk with rfl | hk
          · exact ⟨k, List.mem_cons_self, hbroken⟩
          · obtain ⟨k', hk', hbroken'⟩ := hsome ⟨k, hk, hbroken⟩
            exact ⟨k', List.mem_cons_of_mem _ hk', hbroken'⟩

/-- A space, the word `or` and a space are cut off from what follows. -/
theorem cuts_or : Cuts (fun _ => True) [' ', 'o', 'r', ' '] := by
  intro position rest ts _ hts
  exact ⟨[⟨.word, ['o', 'r'], position + 1⟩], tokensFrom_or hts⟩

theorem cut_of_writeConjunction {fs : List Fragment} {f : Fragment} (h : ∀ g ∈ fs, g.Cut)
    (hwrite : writeConjunction fs = .ok f) : f.Cut ∧ ((∃ g ∈ fs, g.Broken) → f.Broken) := by
  have hcuts : ∀ cs ∈ fs.map fun g => g.conjunctText.toList, Cuts Ends cs :=
    List.forall_mem_map.mpr fun g hg => (h g hg).cuts_conjunctText.1
  have htilde : Cuts (fun _ => True) ['~'] := cuts_mark rfl
  have htext : ("~".intercalate (fs.map Fragment.conjunctText)).toList
      = ['~'].intercalate (fs.map fun g => g.conjunctText.toList) := by
    rw [String.toList_intercalate, List.map_map]
    rfl
  rw [writeConjunction] at hwrite
  split at hwrite
  · cases hwrite
  · obtain rfl := Except.ok.inj hwrite
    refine ⟨?_, fun hsome => ?_⟩
    · show Cuts Ends ("~".intercalate (fs.map Fragment.conjunctText)).toList
      rw [htext]
      exact cuts_intercalate (fun _ hrest => hrest) .tilde htilde hcuts
    · obtain ⟨g, hg, hbroken⟩ := hsome
      show Breaks Ends ("~".intercalate (fs.map Fragment.conjunctText)).toList
      rw [htext]
      exact breaks_intercalate (fun _ hrest => hrest) .tilde htilde hcuts
        ⟨_, List.mem_map_of_mem hg, (h g hg).cuts_conjunctText.2 hbroken⟩

theorem cut_of_writeDisjunction {fs : List Fragment} {f : Fragment} (h : ∀ g ∈ fs, g.Cut)
    (hwrite : writeDisjunction fs = .ok f) : f.Cut ∧ ((∃ g ∈ fs, g.Broken) → f.Broken) := by
  cases fs with
  | nil => cases hwrite
  | cons first rest =>
      obtain ⟨hall, hsome⟩ := cut_of_mergeAll h
      rw [writeDisjunction] at hwrite
      generalize mergeAll first rest = gs at hall hsome hwrite
      split at hwrite
      case h_1 only =>
        obtain rfl := Except.ok.inj hwrite
        refine ⟨hall _ (List.mem_singleton_self _), fun hbroken => ?_⟩
        obtain ⟨g, hg, hbroken⟩ := hsome hbroken
        rw [← List.mem_singleton.mp hg]
        exact hbroken
      case h_2 =>
        obtain rfl := Except.ok.inj hwrite
        have hcuts : ∀ cs ∈ gs.map fun g => g.text.toList, Cuts Ends cs :=
          List.forall_mem_map.mpr fun g hg => (hall g hg).cuts_text.1
        have htext : (" or ".intercalate (gs.map Fragment.text)).toList
            = [' ', 'o', 'r', ' '].intercalate (gs.map fun g => g.text.toList) := by
          rw [String.toList_intercalate, List.map_map]
          rfl
        refine ⟨?_, fun hbroken => ?_⟩
        · show Cuts Ends (" or ".intercalate (gs.map Fragment.text)).toList
          rw [htext]
          exact cuts_intercalate (fun _ hrest => hrest) .or cuts_or hcuts
        · obtain ⟨g, hg, hbroken⟩ := hsome hbroken
          show Breaks Ends (" or ".intercalate (gs.map Fragment.text)).toList
          rw [htext]
          exact breaks_intercalate (fun _ hrest => hrest) .or cuts_or hcuts
            ⟨_, List.mem_map_of_mem hg, (hall g hg).cuts_text.2 hbroken⟩

/-! ## Whole filters -/

theorem cut_of_leaf {c : Criterion} {negated : Bool} (h : ParsedLeaf TextValue c negated) :
    (Clause.ofCriterion c negated).written.Cut ∧
      ((∃ l ∈ operandLiterals c.operand, l.Infinite) → (Clause.ofCriterion c negated).written.Broken) := by
  refine ⟨⟨cuts_writtenPath h.path.isAttributePath, (Clause.ofCriterion c negated).isWord_operatorText, ?_⟩, ?_⟩
  · exact List.forall_mem_map.mpr fun l hl => (cuts_literal (h.literals l hl).1).1
  · rintro ⟨l, hl, hinf⟩
    exact ⟨l.text, List.mem_map_of_mem hl, (cuts_literal (h.literals l hl).1).2 hinf⟩

theorem forall₂_of_writeSpecs_ok {ss : List FilterSpec} {fs : List Fragment} (h : writeSpecs ss = .ok fs) :
    List.Forall₂ (fun s f => writeSpec s = .ok f) ss fs := by
  induction ss generalizing fs with
  | nil =>
      rw [writeSpecs] at h
      obtain rfl := Except.ok.inj h
      exact .nil
  | cons s ss ih =>
      rw [writeSpecs] at h
      split at h
      · cases h
      case h_2 f hf =>
        split at h
        · cases h
        case h_2 fs' hfs =>
          obtain rfl := Except.ok.inj h
          exact .cons hf (ih hfs)

/-- **A filter that comes from a text is written as a text that is cut, and an infinite number spoils
it.** By induction on the filter. -/
theorem Flat.cut_of_writeSpec {spec : FilterSpec} (h : Flat (ParsedLeaf TextValue) spec) :
    ∀ {f : Fragment}, writeSpec spec = .ok f →
      f.Cut ∧ ((∃ l ∈ spec.literals, l.Infinite) → f.Broken) := by
  -- what is known of the children is known of their fragments
  have hchildren : ∀ {children : List FilterSpec} {fs : List Fragment},
      (∀ s ∈ children, ∀ {f : Fragment}, writeSpec s = .ok f →
        f.Cut ∧ ((∃ l ∈ s.literals, l.Infinite) → f.Broken)) →
      writeSpecs children = .ok fs → (∀ g ∈ fs, g.Cut) ∧
        ((∃ l ∈ children.flatMap FilterSpec.literals, l.Infinite) → ∃ g ∈ fs, g.Broken) := by
    intro children fs ih hfs
    have hall := forall₂_of_writeSpecs_ok hfs
    constructor
    · intro g hg
      obtain ⟨s, hs, hwrite⟩ := exists_of_mem_forall₂ hall g hg
      exact (ih s hs hwrite).1
    · rintro ⟨l, hl, hinf⟩
      obtain ⟨s, hs, hls⟩ := List.mem_flatMap.mp hl
      obtain ⟨g, hg, hwrite⟩ := exists_of_mem_forall₂ hall.flip s hs
      exact ⟨g, hg, (ih s hs hwrite).2 ⟨l, hls, hinf⟩⟩
  induction h with
  | criterion hleaf =>
      intro f hwrite
      rw [hleaf.writeSpec_criterion] at hwrite
      obtain rfl := Except.ok.inj hwrite
      rw [FilterSpec.literals_criterion]
      exact cut_of_leaf hleaf
  | negation hleaf =>
      intro f hwrite
      rw [hleaf.writeSpec_negation] at hwrite
      obtain rfl := Except.ok.inj hwrite
      rw [FilterSpec.literals_negation, FilterSpec.literals_criterion]
      exact cut_of_leaf hleaf
  | conjunction _ _ _ ih =>
      intro f hwrite
      rw [writeSpec] at hwrite
      split at hwrite
      · cases hwrite
      case h_2 fs hfs =>
        obtain ⟨hcut, hbroken⟩ := hchildren ih hfs
        obtain ⟨hf, hspoiled⟩ := cut_of_writeConjunction hcut hwrite
        rw [FilterSpec.literals_conjunction]
        exact ⟨hf, fun hinf => hspoiled (hbroken hinf)⟩
  | disjunction _ _ _ ih =>
      intro f hwrite
      rw [writeSpec] at hwrite
      split at hwrite
      · cases hwrite
      case h_2 fs hfs =>
        obtain ⟨hcut, hbroken⟩ := hchildren ih hfs
        obtain ⟨hf, hspoiled⟩ := cut_of_writeDisjunction hcut hwrite
        rw [FilterSpec.literals_disjunction]
        exact ⟨hf, fun hinf => hspoiled (hbroken hinf)⟩

/-- **What is written for a filter with an infinite number is not read.** -/
theorem Flat.not_infinite_of_parseFilter {spec spec' : FilterSpec} (h : Flat (ParsedLeaf TextValue) spec)
    {t : String} (hwrite : writeFilter spec = .ok t) (hparse : parseFilter t = .ok spec') :
    ∀ l ∈ spec.literals, ¬ l.Infinite := by
  intro l hl hinf
  unfold writeFilter at hwrite
  cases hf : writeSpec spec with
  | error e =>
      rw [hf] at hwrite
      cases hwrite
  | ok f =>
      rw [hf] at hwrite
      obtain rfl := Except.ok.inj hwrite
      obtain ⟨hcut, hbroken⟩ := h.cut_of_writeSpec hf
      exact hcut.not_broken_of_parseFilter hparse (hbroken ⟨l, hl, hinf⟩)

end EntityStore.QueryText
