import EntityStore.Json.Access
import EntityStore.Json.Reader
import EntityStore.Proofs.Binary64.Range

/-!
# Numbers that are read are finite

A numeral that is out of range is refused, and the scaling of one that is not never leads there. So
**a number that is read from a document is finite**, wherever in the document it is.
-/

namespace EntityStore.Json

variable {x y : Binary64}

/-! ## Numerals -/

theorem absorbDigits_fst_le {n : Nat} (hn : n ≤ exactBound) (cs : List Char) :
    (absorbDigits n cs).1 ≤ exactBound := by
  induction cs generalizing n with
  | nil => exact hn
  | cons c rest ih =>
    rw [absorbDigits]
    by_cases hnext : n * 10 + (c.toNat - '0'.toNat) ≤ exactBound
    · rw [if_pos hnext]
      exact ih hnext
    · rw [if_neg hnext]
      exact hn

theorem isFinite_ofRatio_of_exact {n : Nat} (hn : n ≤ exactBound) (negative : Bool) :
    (Binary64.ofRatio negative n 1).isFinite = true :=
  Binary64.isFinite_ofRatio_one (Nat.lt_of_le_of_lt hn (by decide)) negative

/-- Dividing by a power of ten. -/
theorem isFinite_divMagnitude_ten (hx : x.isFinite = true) {power : Int} (hpos : 0 < power)
    (hle : power ≤ 308) : (x.divMagnitude (Binary64.ofDecimal false 1 power)).isFinite = true := by
  obtain ⟨k, rfl⟩ := Int.eq_ofNat_of_zero_le (Int.le_of_lt hpos)
  exact Binary64.isFinite_divMagnitude hx (Binary64.eight_le_ratio_ten (by omega) (by omega))

theorem isFinite_scaleByTen? {power : Int} (hx : x.isFinite = true)
    (h : scaleByTen? x power = some y) : y.isFinite = true := by
  fun_induction scaleByTen? x power with
  | case1 x power hlarge hzero =>
    obtain rfl := Option.some.inj h
    exact hx
  | case2 => cases h
  | case3 => cases h
  | case4 x power hsmall hpos y' hinf =>
    obtain rfl := Option.some.inj h
    exact Binary64.isFinite_mulMagnitude (eq_false_of_ne_true hinf)
  | case5 x power hsmall hneg hle =>
    obtain rfl := Option.some.inj h
    exact isFinite_divMagnitude_ten hx (by omega) (by omega)
  | case6 x power hsmall hneg hlow hzero =>
    obtain rfl := Option.some.inj h
    exact hx
  | case7 x power hsmall hneg hlow hzero ih =>
    exact ih (isFinite_divMagnitude_ten hx (by decide) (by decide)) h

theorem Numeral.isFinite_of_toFloat? {n : Numeral} (h : n.toFloat? = some x) : x.isFinite = true := by
  have hlead := absorbDigits_fst_le (Nat.zero_le exactBound) n.whole
  have hsignificand := absorbDigits_fst_le hlead (n.fraction.getD [])
  have hofNat := isFinite_ofRatio_of_exact hsignificand false
  have hsigned : ∀ {y : Binary64}, y.isFinite = true →
      (if n.negative then y.negate else y).isFinite = true := by
    intro y hy
    split
    · exact Binary64.isFinite_negate hy
    · exact hy
  unfold toFloat? at h
  simp only at h
  split at h
  · obtain ⟨y, hy, rfl⟩ := Option.map_eq_some_iff.mp h
    exact hsigned (isFinite_scaleByTen? hofNat hy)
  · split at h
    · split at h
      · cases h
      · obtain rfl := Option.some.inj h
        exact hsigned (by decide)
    · obtain ⟨y, hy, rfl⟩ := Option.map_eq_some_iff.mp h
      exact hsigned (isFinite_scaleByTen? hofNat hy)

theorem isFinite_ofInt_of_exact {i : Int} (hi : i.natAbs ≤ exactBound) :
    (Binary64.ofInt i).isFinite = true :=
  isFinite_ofRatio_of_exact hi _

/-- **The number of a numeral is finite.** -/
theorem Numeral.isFinite_of_toJson? {n : Numeral} {j : Json} (h : n.toJson? = some j) :
    ∃ x, j.float? = some x ∧ x.isFinite = true := by
  have hfloat : n.toFloat?.map Json.float = some j → ∃ x, j.float? = some x ∧ x.isFinite = true := by
    intro h
    obtain ⟨x, hx, rfl⟩ := Option.map_eq_some_iff.mp h
    exact ⟨x, rfl, isFinite_of_toFloat? hx⟩
  have hwhole := absorbDigits_fst_le (Nat.zero_le exactBound) n.whole
  unfold toJson? at h
  split at h
  · split at h
    · next value habsorb =>
      rw [habsorb] at hwhole
      split at h
      · obtain rfl := Option.some.inj h
        exact ⟨_, rfl, isFinite_ofInt_of_exact hwhole⟩
      · split at h <;> obtain rfl := Option.some.inj h
        · exact ⟨_, rfl, Binary64.isFinite_negate (isFinite_ofRatio_of_exact hwhole false)⟩
        · refine ⟨_, rfl, isFinite_ofInt_of_exact ?_⟩
          rw [Int.natAbs_neg]
          exact hwhole
    · exact hfloat h
  · exact hfloat h

/-! ## Documents -/

/-- A value that comes from a document, or from within one. -/
def Read (j : Json) : Prop := ∃ (w : Written) (depth : Nat), w.toJson? depth = some j

theorem read_of_ofText? {cs : List Char} {j : Json} (h : ofText? cs = some j) : Read j := by
  obtain ⟨w, -, hw⟩ := Option.bind_eq_some_iff.mp h
  exact ⟨w, depthLimit, hw⟩

/-- What a value was read from: a number from a numeral, and what has parts from what has. -/
def Source : Json → Prop
  | .int i => ∃ n : Numeral, n.toJson? = some (.int i)
  | .float x => ∃ n : Numeral, n.toJson? = some (.float x)
  | .array items => ∃ ws depth, Written.toItems? depth ws = some items
  | .object members => ∃ ws depth, Written.toMembers? depth [] ws = some members
  | _ => True

theorem Read.source {j : Json} (h : Read j) : j.Source := by
  obtain ⟨w, depth, h⟩ := h
  cases w with
  | null | bool b =>
    rw [Written.toJson?] at h
    obtain rfl := Option.some.inj h
    trivial
  | number n =>
    rw [Written.toJson?] at h
    obtain ⟨x, hx, -⟩ := n.isFinite_of_toJson? h
    cases j with
    | int i => exact ⟨n, h⟩
    | float y => exact ⟨n, h⟩
    | null | bool b | text s | array items | object members => cases hx
  | text s =>
    rw [Written.toJson?] at h
    obtain ⟨_, -, rfl⟩ := Option.map_eq_some_iff.mp h
    trivial
  | array ws =>
    cases depth with
    | zero =>
      rw [Written.toJson?] at h
      cases h
    | succ depth =>
      rw [Written.toJson?] at h
      obtain ⟨items, hitems, rfl⟩ := Option.map_eq_some_iff.mp h
      exact ⟨ws, depth, hitems⟩
  | object ws =>
    cases depth with
    | zero =>
      rw [Written.toJson?] at h
      cases h
    | succ depth =>
      rw [Written.toJson?] at h
      obtain ⟨members, hmembers, rfl⟩ := Option.map_eq_some_iff.mp h
      exact ⟨ws, depth, hmembers⟩

/-- **A number that is read is finite.** -/
theorem Read.isFinite {j : Json} (h : Read j) : ∀ x ∈ j.float?, x.isFinite = true := by
  have hnumeral : ∀ n : Numeral, n.toJson? = some j → ∀ x ∈ j.float?, x.isFinite = true := by
    intro n hn x hx
    obtain ⟨y, hy, hfinite⟩ := n.isFinite_of_toJson? hn
    obtain rfl : y = x := Option.some.inj (hy.symm.trans hx)
    exact hfinite
  have hsource := h.source
  cases j with
  | int i =>
    obtain ⟨n, hn⟩ := hsource
    exact hnumeral n hn
  | float x =>
    obtain ⟨n, hn⟩ := hsource
    exact hnumeral n hn
  | null | bool b | text s | array items | object members => exact nofun

theorem read_of_toItems? {ws : List Written} {depth : Nat} {items : List Json}
    (h : Written.toItems? depth ws = some items) : ∀ j ∈ items, Read j := by
  induction ws generalizing items with
  | nil =>
    rw [Written.toItems?] at h
    obtain rfl := Option.some.inj h
    exact fun j hj => absurd hj List.not_mem_nil
  | cons w rest ih =>
    rw [Written.toItems?] at h
    obtain ⟨item, hitem, h⟩ := Option.bind_eq_some_iff.mp h
    obtain ⟨others, hothers, h⟩ := Option.bind_eq_some_iff.mp h
    obtain rfl := Option.some.inj h
    exact List.forall_mem_cons.mpr ⟨⟨w, depth, hitem⟩, ih hothers⟩

theorem Read.items {items : List Json} (h : Read (.array items)) : ∀ j ∈ items, Read j := by
  obtain ⟨ws, depth, hitems⟩ := h.source
  exact read_of_toItems? hitems

theorem mem_of_mem_putMember {name : String} {value : Json} {members : List (String × Json)}
    {m : String × Json} (hm : m ∈ putMember name value members) : m = (name, value) ∨ m ∈ members := by
  induction members with
  | nil => exact .inl (List.mem_singleton.mp hm)
  | cons head rest ih =>
    rw [putMember] at hm
    split at hm
    · exact (List.mem_cons.mp hm).imp_right (List.mem_cons_of_mem head)
    · split at hm
      · exact List.mem_cons.mp hm
      · rcases List.mem_cons.mp hm with rfl | hm
        · exact .inr List.mem_cons_self
        · exact (ih hm).imp_right (List.mem_cons_of_mem head)

theorem read_of_toMembers? {ws : List (List Piece × Written)} {depth : Nat}
    {sofar members : List (String × Json)} (hsofar : ∀ m ∈ sofar, Read m.2)
    (h : Written.toMembers? depth sofar ws = some members) : ∀ m ∈ members, Read m.2 := by
  induction ws generalizing sofar with
  | nil =>
    rw [Written.toMembers?] at h
    obtain rfl := Option.some.inj h
    exact hsofar
  | cons w rest ih =>
    obtain ⟨name, w⟩ := w
    rw [Written.toMembers?] at h
    obtain ⟨text, -, h⟩ := Option.bind_eq_some_iff.mp h
    obtain ⟨value, hvalue, h⟩ := Option.bind_eq_some_iff.mp h
    refine ih ?_ h
    intro m hm
    rcases mem_of_mem_putMember hm with rfl | hm
    · exact ⟨w, depth, hvalue⟩
    · exact hsofar m hm

theorem Read.members {members : List (String × Json)} (h : Read (.object members)) :
    ∀ m ∈ members, Read m.2 := by
  obtain ⟨ws, depth, hmembers⟩ := h.source
  exact read_of_toMembers? (fun m hm => absurd hm List.not_mem_nil) hmembers

end EntityStore.Json
