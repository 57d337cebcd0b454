import EntityStore.Proofs.Binary64.Bits
import EntityStore.Proofs.Entity.Plain
import Mathlib.Data.List.Forall2

/-!
# When snapshots are the same

Snapshots are compared attribute by attribute, and values by the equality of their kind. That is
identity but for three things: a NaN differs from itself, the zeros of both signs are equal, and so
are timestamps of one instant whatever their offsets. So two snapshots of entities of one type are
the same just when every declared attribute shows the same in this sense.
-/

namespace EntityStore

namespace Binary64

variable {x y : Binary64}

theorem not_isNaN_of_isZero (hx : x.isZero = true) : x.isNaN = false := by
  have hzero : x.magnitude = 0 := by simpa [isZero] using hx
  simp [isNaN, hzero]

/-- Numbers on one place of the line are identical, or both zeros. -/
theorem eq_or_isZero_of_rank (h : x.rank = y.rank) :
    x = y ∨ x.isZero = true ∧ y.isZero = true := by
  unfold rank at h
  by_cases hsign : x.isNegative = y.isNegative
  · have hmagnitude : x.magnitude = y.magnitude := by
      rw [hsign] at h
      split at h <;> omega
    left
    rw [← ofMagnitude_self x, ← ofMagnitude_self y, hsign, hmagnitude]
  · right
    rw [isZero, isZero, beq_iff_eq, beq_iff_eq]
    split at h
    · next hx =>
      have hy : ¬ y.isNegative = true := fun hy => hsign (hx.trans hy.symm)
      rw [if_neg hy] at h
      omega
    · next hx =>
      have hy : y.isNegative = true := by
        by_contra hy
        exact hsign ((eq_false_of_ne_true hx).trans (eq_false_of_ne_true hy).symm)
      rw [if_pos hy] at h
      omega

theorem rank_of_isZero (hx : x.isZero = true) : x.rank = 0 := by
  have hzero : x.magnitude = 0 := by simpa [isZero] using hx
  simp [rank, hzero]

theorem sameNumber_iff_rank :
    x.sameNumber y = true ↔ (x.isNaN = false ∧ y.isNaN = false) ∧ x.rank = y.rank := by
  rw [← Bool.or_eq_false_iff]
  unfold sameNumber compare?
  cases x.isNaN || y.isNaN <;> simp

/-- Equal numbers are identical and numbers, or both zeros. -/
theorem sameNumber_iff :
    x.sameNumber y = true ↔ x = y ∧ x.isNaN = false ∨ x.isZero = true ∧ y.isZero = true := by
  rw [sameNumber_iff_rank]
  refine ⟨?_, ?_⟩
  · intro h
    obtain ⟨⟨hx, -⟩, hrank⟩ := h
    exact (eq_or_isZero_of_rank hrank).imp_left fun heq => ⟨heq, hx⟩
  · rintro (⟨rfl, hx⟩ | ⟨hx, hy⟩)
    · exact ⟨⟨hx, hx⟩, rfl⟩
    · exact ⟨⟨not_isNaN_of_isZero hx, not_isNaN_of_isZero hy⟩,
        (rank_of_isZero hx).trans (rank_of_isZero hy).symm⟩

end Binary64

namespace Value

/-- Values that are equal without having to be identical: zeros of either sign, and timestamps of
one instant, whatever their offsets. -/
inductive Twins : Value → Value → Prop
  | zeros {x y : Binary64} (hx : x.isZero = true) (hy : y.isZero = true) :
      Twins (.float x) (.float y)
  | instants {s t : Timestamp} (h : s.instant = t.instant) : Twins (.timestamp s) (.timestamp t)

/-- Values that compare as equal: identical ones but for a NaN, and twins. -/
def Alike (v w : Value) : Prop := v = w ∧ v.isNaN = false ∨ v.Twins w

variable {v w : Value}

theorem same_iff_alike : v.same w = true ↔ v.Alike w := by
  refine ⟨?_, ?_⟩
  · intro h
    unfold same at h
    split at h
    case h_4 x y =>
      rcases Binary64.sameNumber_iff.mp h with ⟨rfl, hx⟩ | ⟨hx, hy⟩
      · exact .inl ⟨rfl, hx⟩
      · exact .inr (.zeros hx hy)
    case h_6 s t => exact .inr (.instants (by simpa [Timestamp.sameInstant] using h))
    case h_8 => cases h
    all_goals first
      | exact .inl ⟨rfl, rfl⟩
      | exact .inl ⟨congrArg _ (by simpa using h), rfl⟩
  · rintro (⟨rfl, hself⟩ | hx | ht)
    · exact same_self hself
    · next hx hy => exact Binary64.sameNumber_iff.mpr (.inr ⟨hx, hy⟩)
    · next ht => simpa [same, Timestamp.sameInstant] using ht

/-- A value equals itself unless it is a NaN. -/
theorem alike_self : v.Alike v ↔ v.isNaN = false := by
  refine ⟨?_, fun h => .inl ⟨rfl, h⟩⟩
  rintro (⟨-, h⟩ | hx | -)
  · exact h
  · next hx _ => exact Binary64.not_isNaN_of_isZero hx
  · rfl

theorem sameList_iff {vs ws : List Value} :
    sameList vs ws = true ↔ List.Forall₂ Alike vs ws := by
  induction vs generalizing ws with
  | nil => cases ws <;> simp [sameList]
  | cons v rest ih => cases ws <;> simp [sameList, same_iff_alike, ih]

end Value

namespace Captured

/-- Captured attributes that compare as equal: shown in the same way, with values that do. -/
inductive Alike : Captured → Captured → Prop
  | scalar {v w : Value} (h : v.Alike w) : Alike (.scalar v) (.scalar w)
  | ref {v w : Value} (h : v.Alike w) : Alike (.ref v) (.ref w)
  | refs {vs ws : List Value} (h : List.Forall₂ Value.Alike vs ws) : Alike (.refs vs) (.refs ws)

/-- Whether a NaN is among what was captured. -/
def holdsNaN : Captured → Bool
  | .scalar v => v.isNaN
  | .ref v => v.isNaN
  | .refs vs => vs.any Value.isNaN

theorem sameCaptured_iff {c d : Captured} :
    Snapshot.sameCaptured c d = true ↔ c.Alike d := by
  refine ⟨?_, ?_⟩
  · intro h
    unfold Snapshot.sameCaptured at h
    split at h
    · exact .scalar (Value.same_iff_alike.mp h)
    · exact .ref (Value.same_iff_alike.mp h)
    · exact .refs (Value.sameList_iff.mp h)
    · cases h
  · rintro (h | h | h)
    · exact Value.same_iff_alike.mpr h
    · exact Value.same_iff_alike.mpr h
    · exact Value.sameList_iff.mpr h

theorem alike_self {c : Captured} : c.Alike c ↔ c.holdsNaN = false := by
  rw [← sameCaptured_iff]
  cases c with
  | scalar v => exact Value.same_iff_alike.trans Value.alike_self
  | ref v => exact Value.same_iff_alike.trans Value.alike_self
  | refs vs =>
    refine Value.sameList_iff.trans ?_
    simp [List.forall₂_same, Value.alike_self, holdsNaN]

/-- What an attribute shows equals itself unless there is a NaN in it. -/
theorem rel_self {shown : Option Captured} :
    Option.Rel Alike shown shown ↔ ∀ c ∈ shown, c.holdsNaN = false := by
  cases shown with
  | none => exact iff_of_true .none fun _ h => nomatch h
  | some d =>
    refine ⟨fun h c hc => ?_, fun h => .some (alike_self.mpr (h d rfl))⟩
    obtain rfl := Option.some.inj hc
    cases h with
    | some halike => exact alike_self.mp halike

end Captured

namespace Snapshot

/-- What an attribute of an entity shows of its state, if it can be read. -/
def shown? (p : Pool) (h : Handle) (a : Attribute) : Option Captured :=
  captureField? p a.kind ((p.entity h).field? a.name)

theorem capture_eq (p : Pool) (h : Handle) :
    capture p h = (p.entity h).type.attributes.filterMap fun a =>
      (shown? p h a).map fun c => (a.name, c) := rfl

variable {p q : Pool}

/-- Attributes that show alike are read from fields of one shape, so each could be read where the
other was. -/
theorem isSome_of_alike {kind kind' : AttributeKind} {field field' : Option Field}
    {c c' : Captured} (hc : captureField? q kind field = some c)
    (hc' : captureField? p kind' field' = some c') (halike : c.Alike c') :
    (captureField? p kind field').isSome = true ∧ (captureField? q kind' field).isSome = true := by
  unfold captureField? at hc
  split at hc <;> cases hc <;> cases halike <;> unfold captureField? at hc' <;>
    split at hc' <;> cases hc' <;> exact ⟨rfl, rfl⟩

/-- The snapshot whose attributes are shown by a function. -/
def ofShown (f : Attribute → Option Captured) (attributes : List Attribute) : Snapshot :=
  attributes.filterMap fun a => (f a).map fun c => (a.name, c)

theorem mem_ofShown {f : Attribute → Option Captured} {attributes : List Attribute} {name : String}
    {c : Captured} (hmem : (name, c) ∈ ofShown f attributes) :
    ∃ a ∈ attributes, f a = some c ∧ a.name = name := by
  obtain ⟨a, ha, hshown⟩ := List.mem_filterMap.mp hmem
  obtain ⟨d, hd, heq⟩ := Option.map_eq_some_iff.mp hshown
  obtain ⟨rfl, rfl⟩ := Prod.mk.inj heq
  exact ⟨a, ha, hd, rfl⟩

theorem same_cons_iff {m n : String} {c d : Captured} {s t : Snapshot} :
    same ((m, c) :: s) ((n, d) :: t) = true ↔ (m = n ∧ c.Alike d) ∧ same s t = true := by
  simp [same, Captured.sameCaptured_iff]

/-- What a snapshot's first entry is compared with: an attribute of its name that shows alike. -/
theorem exists_of_same_cons {f : Attribute → Option Captured} {attributes : List Attribute}
    {n : String} {d : Captured} {t : Snapshot}
    (hsame : same (ofShown f attributes) ((n, d) :: t) = true) :
    ∃ a ∈ attributes, ∃ c ∈ f a, a.name = n ∧ c.Alike d := by
  cases hshown : ofShown f attributes with
  | nil =>
    rw [hshown] at hsame
    cases hsame
  | cons entry others =>
    obtain ⟨m, c⟩ := entry
    rw [hshown, same_cons_iff] at hsame
    obtain ⟨a, ha, hc, rfl⟩ := mem_ofShown (hshown ▸ List.mem_cons_self)
    exact ⟨a, ha, c, hc, hsame.1⟩

@[inherit_doc exists_of_same_cons]
theorem exists_of_cons_same {g : Attribute → Option Captured} {attributes : List Attribute}
    {m : String} {c : Captured} {s : Snapshot}
    (hsame : same ((m, c) :: s) (ofShown g attributes) = true) :
    ∃ a ∈ attributes, ∃ d ∈ g a, m = a.name ∧ c.Alike d := by
  cases hshown : ofShown g attributes with
  | nil =>
    rw [hshown] at hsame
    cases hsame
  | cons entry others =>
    obtain ⟨n, d⟩ := entry
    rw [hshown, same_cons_iff] at hsame
    obtain ⟨a, ha, hd, rfl⟩ := mem_ofShown (hshown ▸ List.mem_cons_self)
    exact ⟨a, ha, d, hd, hsame.1⟩

/-- Snapshots are the same just when every attribute shows alike. -/
theorem same_ofShown_iff {attributes : List Attribute} {f g : Attribute → Option Captured}
    (hshape : ∀ a ∈ attributes, ∀ a' ∈ attributes, a.name = a'.name → ∀ c ∈ f a, ∀ c' ∈ g a',
      c.Alike c' → (g a).isSome = true ∧ (f a').isSome = true) :
    same (ofShown f attributes) (ofShown g attributes) = true ↔
      ∀ a ∈ attributes, Option.Rel Captured.Alike (f a) (g a) := by
  induction attributes with
  | nil => simp [ofShown, same]
  | cons a rest ih =>
    have hrest := ih fun b hb b' hb' => hshape b (.tail _ hb) b' (.tail _ hb')
    rw [List.forall_mem_cons, ← hrest, ofShown, ofShown, List.filterMap_cons, List.filterMap_cons]
    cases hf : f a with
    | none =>
      cases hg : g a with
      | none => exact (and_iff_right Option.Rel.none).symm
      | some d =>
        refine iff_of_false (fun hsame => ?_) (fun h => ?_)
        · obtain ⟨b, hb, c, hc, hname, halike⟩ := exists_of_same_cons hsame
          have hsome := hshape b (.tail _ hb) a (.head _) hname c hc d hg halike
          rw [hf] at hsome
          cases hsome.2
        · cases h.1
    | some c =>
      cases hg : g a with
      | none =>
        refine iff_of_false (fun hsame => ?_) (fun h => ?_)
        · obtain ⟨b, hb, d, hd, hname, halike⟩ := exists_of_cons_same hsame
          have hsome := hshape a (.head _) b (.tail _ hb) hname c hf d hd halike
          rw [hg] at hsome
          cases hsome.1
        · cases h.1
      | some d =>
        refine same_cons_iff.trans (and_congr_left fun _ => ?_)
        refine ⟨fun h => .some h.2, fun h => ?_⟩
        cases h with
        | some halike => exact ⟨rfl, halike⟩

/-- **Snapshots are compared attribute by attribute.** Two entities of one type have the same state
just when every declared attribute shows alike. -/
theorem same_capture_iff {h k : Handle} (htype : (q.entity k).type = (p.entity h).type) :
    (capture q k).same (capture p h) = true ↔
      ∀ a ∈ (p.entity h).type.attributes, Option.Rel Captured.Alike (shown? q k a) (shown? p h a) := by
  rw [capture_eq, capture_eq, htype]
  refine same_ofShown_iff fun a _ a' _ hname c hc c' hc' halike => ?_
  unfold shown? at hc hc' ⊢
  rw [hname] at hc ⊢
  exact isSome_of_alike hc hc' halike

end Snapshot

end EntityStore
