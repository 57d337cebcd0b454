import EntityStore.Json.Typed
import EntityStore.Proofs.Json.Spelling
import EntityStore.Proofs.Text.Integer

/-!
# Typed readers over documents that spell

A typed reader takes a document apart as the value it spells was put together: a record gives the
fields it was made of, and a tagged value its tag and then its content.
-/

namespace EntityStore.Json

open Written

variable {w : Written} {s : String} {names : List String} {buffered : Bool} {depth : Nat}

/-! ## Scalars and names -/

theorem Spells.string?_eq (h : Spells w (.text s)) : w.string? = some s := by
  cases h with | text h => exact h

theorem Spells.bool?_eq {b : Bool} (h : Spells w (.bool b)) : w.bool? = some b := by
  cases h with | bool => rfl

theorem Spells.int64?_eq {i : Int64} (h : Spells w (.int i.toInt)) : w.int64? = some i := by
  cases h with | int h => simp [Written.int64?, number?, h, Text.inInt64_toInt]

theorem Spells.float?_eq {x : Binary64} (h : Spells w (.float x)) : w.float? = some x := by
  cases h with | float h => simp [Written.float?, number?, h]

theorem Spells.choice?_eq (h : Spells w (.text s)) (hs : s ∈ names) :
    w.choice? buffered depth names = some s := by
  have hfind : names.find? (· == s) = some s := by
    cases hfound : names.find? (· == s) with
    | none => exact absurd (beq_self_eq_true s) (List.find?_eq_none.mp hfound s hs)
    | some name =>
      have hname := List.find?_some hfound
      rw [eq_of_beq hname]
  have hstring := h.string?_eq
  cases h with
  | text => rw [choice?, name?, hstring, Option.bind_some, hfind]

/-! ## Members -/

/-- The members as named spell the members of a value. -/
def SpellsNamed (named : List (String × Written)) (members : List (String × Json)) : Prop :=
  List.Forall₂ (fun n m => n.1 = m.1 ∧ Spells n.2 m.2) named members

theorem SpellsMembers.decodeNames? {ws : List (List Piece × Written)}
    {members : List (String × Json)} (h : SpellsMembers ws members) :
    ∃ named, decodeNames? ws = some named ∧ SpellsNamed named members := by
  induction members generalizing ws with
  | nil =>
    cases h
    exact ⟨[], rfl, .nil⟩
  | cons m members ih =>
    cases h with
    | @cons w ws _ _ hname hw hws =>
      obtain ⟨named, hnamed, hspells⟩ := ih hws
      refine ⟨(m.1, w.2) :: named, ?_, .cons ⟨rfl, hw⟩ hspells⟩
      simp [Written.decodeNames?, hname, hnamed]

theorem SpellsNamed.names_eq {named : List (String × Written)} {members : List (String × Json)}
    (h : SpellsNamed named members) : named.map (·.1) = members.map (·.1) := by
  induction h with
  | nil => rfl
  | cons hm _ ih => rw [List.map_cons, List.map_cons, hm.1, ih]

theorem SpellsNamed.items {named : List (String × Written)} {members : List (String × Json)}
    (h : SpellsNamed named members) : SpellsItems (named.map (·.2)) (members.map (·.2)) := by
  induction h with
  | nil => exact .nil
  | cons hm _ ih => exact .cons hm.2 ih

/-- Of names that differ each is the only one of its kind. -/
theorem onlyMember?_of_nodup {named : List (String × Written)} (hnodup : (named.map (·.1)).Nodup)
    {m : String × Written} (hm : m ∈ named) : onlyMember? m.1 named = some (some m.2) := by
  have hfilter : named.filter (fun n => n.1 == m.1) = [m] := by
    induction named with
    | nil => cases hm
    | cons n named ih =>
      rw [List.map_cons, List.nodup_cons] at hnodup
      rcases List.mem_cons.mp hm with rfl | hm
      · have hrest : named.filter (fun n => n.1 == m.1) = [] := by
          rw [List.filter_eq_nil_iff]
          intro n hn heq
          exact hnodup.1 (List.mem_map.mpr ⟨n, hn, eq_of_beq heq⟩)
        rw [List.filter_cons, beq_self_eq_true, if_pos rfl, hrest]
      · have hne : ¬ (n.1 == m.1) = true := by
          intro heq
          exact hnodup.1 (List.mem_map.mpr ⟨m, hm, (eq_of_beq heq).symm⟩)
        rw [List.filter_cons, if_neg hne, ih hnodup.2 hm]
  rw [onlyMember?, hfilter]

/-- An object of one member is written as one. -/
theorem Spells.node {kind : String} {content : Json} (h : Spells w (.object [(kind, content)])) :
    ∃ name c, w = .object [(name, c)] ∧ decodeText? name = some kind ∧ Spells c content := by
  cases h with | object h =>
  cases h with | @cons m _ _ _ hname hcontent h =>
  cases h
  exact ⟨m.1, m.2, rfl, hname, hcontent⟩

/-- **A record gives the fields it was made of.** -/
theorem Spells.fields?_eq {members : List (String × Json)} (h : Spells w (.object members))
    (hnodup : (members.map (·.1)).Nodup) :
    ∃ ws, w.fields? (members.map (·.1)) = some (ws.map some) ∧ SpellsItems ws (members.map (·.2)) := by
  cases h with
  | object h =>
    obtain ⟨named, hnamed, hspells⟩ := h.decodeNames?
    refine ⟨named.map (·.2), ?_, hspells.items⟩
    rw [← hspells.names_eq] at hnodup ⊢
    have hall : ∀ part : List (String × Written), (∀ m ∈ part, m ∈ named) →
        (part.map (·.1)).mapM (fun name => onlyMember? name named)
          = some ((part.map (·.2)).map some) := by
      intro part hpart
      induction part with
      | nil => rfl
      | cons m part ih =>
        obtain ⟨hm, hpart⟩ := List.forall_mem_cons.mp hpart
        simp [onlyMember?_of_nodup hnodup hm, ih hpart]
    rw [fields?, hnamed]
    exact hall named fun _ hm => hm

/-- **A tagged value gives its tag, and the content that follows it.** -/
theorem Spells.tagged?_eq {tagName contentName : String} {content : Json} (hne : tagName ≠ contentName)
    (h : Spells w (.object [(tagName, .text s), (contentName, content)])) (hs : s ∈ names) :
    ∃ c, Spells c content ∧
      w.tagged? false depth tagName contentName names = some ⟨s, some c, false⟩ := by
  cases h with
  | object h =>
    obtain ⟨named, hnamed, hspells⟩ := h.decodeNames?
    cases hspells with
    | @cons t _ _ _ ht hspells =>
    cases hspells with
    | @cons c _ _ _ hc hspells =>
    cases hspells
    obtain ⟨tagName, t⟩ := t
    obtain ⟨contentName, c⟩ := c
    obtain ⟨rfl, ht⟩ := ht
    obtain ⟨rfl, hc⟩ := hc
    have hnodup : ([(tagName, t), (contentName, c)].map (·.1)).Nodup := by simpa using hne
    have htag := onlyMember?_of_nodup hnodup List.mem_cons_self
    have hcontent := onlyMember?_of_nodup hnodup (List.mem_cons_of_mem _ List.mem_cons_self)
    have hfirst : (tagName == contentName) = false := by simpa using hne
    refine ⟨c, hc, ?_⟩
    simp [tagged?, hnamed, htag, hcontent, ht.choice?_eq hs, hfirst]

/-- A tag may come without content. -/
theorem Spells.tagged?_bare {tagName contentName : String} (hne : tagName ≠ contentName)
    (h : Spells w (.object [(tagName, .text s)])) (hs : s ∈ names) :
    w.tagged? false depth tagName contentName names = some ⟨s, none, false⟩ := by
  cases h with
  | object h =>
    obtain ⟨named, hnamed, hspells⟩ := h.decodeNames?
    cases hspells with
    | @cons t _ _ _ ht hspells =>
    cases hspells
    obtain ⟨tagName, t⟩ := t
    obtain ⟨rfl, ht⟩ := ht
    have hfirst : (tagName == contentName) = false := by simpa using hne
    simp [tagged?, hnamed, onlyMember?, ht.choice?_eq hs, hfirst]

end EntityStore.Json
