import EntityStore.Proofs.Binary64.Range
import EntityStore.Proofs.Entity.Alike
import EntityStore.Proofs.Select.Parting
import EntityStore.Proofs.Select.Routes
import EntityStore.Samples.Stores

/-!
# Where the sorting order is one

Values compare within the four ranks of things that compare: truth values, numbers, texts and
timestamps. Of values of different ranks the rank decides, so the order is in question within a rank
only, and there only among numbers. Two integers compare exactly, but an integer and a float as the
floats they are read as, and a NaN is equal to every number. So a float may be equal to two integers of
which one is greater, and a NaN to any two numbers. **The order is transitive wherever no such value
stands between the two that are compared, and nowhere else.** A comparator that is made of checked
sort keys is consistent over records whose keys hold no such three values.
-/

namespace EntityStore

namespace Binary64

variable {x y : Binary64}

theorem compare?_swap (x y : Binary64) :
    (y.compare? x).getD .eq = ((x.compare? y).getD .eq).swap := by
  rw [compare?, compare?, Bool.or_comm]
  split
  · rfl
  · exact Std.OrientedOrd.eq_swap

/-- What a sort takes to be in order: a NaN with anything, and the others by their places. -/
theorem isLE_compare? :
    ((x.compare? y).getD .eq).isLE = true ↔
      x.isNaN = true ∨ y.isNaN = true ∨ x.rank ≤ y.rank := by
  unfold compare?
  split
  · next h => exact iff_of_true rfl (by simpa [or_assoc] using Or.inl (b := x.rank ≤ y.rank) h)
  · next h =>
    rw [Bool.or_eq_true, not_or] at h
    rw [Option.getD_some, Int.isLE_compare, or_iff_right h.1, or_iff_right h.2]

end Binary64

theorem Timestamp.compare_eq_compareLex :
    Timestamp.compare
      = compareLex (compareLex (compareOn Timestamp.day) (compareOn Timestamp.second))
          (compareOn Timestamp.nano) := rfl

instance : Std.TransCmp Timestamp.compare := by
  rw [Timestamp.compare_eq_compareLex]
  infer_instance

namespace Value

variable {a b c : Value} {s t : String} {x y z : Binary64} {i j : Int64}

/-! ## Within a rank -/

theorem sortCompare_of_rank_ne (h : a.rank ≠ b.rank) : a.sortCompare b = compare a.rank b.rank := by
  cases a <;> cases b <;> first | rfl | exact absurd rfl h

theorem eq_null_of_rank (h : a.rank = 0) : a = .null := by
  cases a <;> first | rfl | cases h

theorem eq_bool_of_rank (h : a.rank = 1) : ∃ p, a = .bool p := by
  cases a <;> first | exact ⟨_, rfl⟩ | cases h

theorem eq_timestamp_of_rank (h : a.rank = 4) : ∃ t, a = .timestamp t := by
  cases a <;> first | exact ⟨_, rfl⟩ | cases h

theorem text?_of_rank (h : a.rank = 3) : ∃ s, a.text? = some s := by
  cases a <;> first | exact ⟨_, rfl⟩ | cases h

theorem number?_of_rank (h : a.rank = 2) : ∃ x, a.number? = some x := by
  cases a <;> first | exact ⟨_, rfl⟩ | cases h

theorem sortCompare_texts (ha : a.text? = some s) (hb : b.text? = some t) :
    a.sortCompare b = compare s t := by
  cases a <;> cases ha <;> cases b <;> cases hb <;> rfl

theorem sortCompare_float_left (hb : b.number? = some y) :
    (Value.float x).sortCompare b = (x.compare? y).getD .eq := by
  cases b <;> cases hb <;> rfl

theorem sortCompare_float_right (ha : a.number? = some x) :
    a.sortCompare (.float y) = (x.compare? y).getD .eq := by
  cases a <;> cases ha <;> rfl

/-! ## The two directions -/

/-- **The two directions of a comparison mirror each other.** -/
theorem sortCompare_swap (a b : Value) : b.sortCompare a = (a.sortCompare b).swap := by
  by_cases hrank : a.rank = b.rank
  · cases a with
    | null => rw [eq_null_of_rank hrank.symm]; rfl
    | bool p =>
        obtain ⟨q, rfl⟩ := eq_bool_of_rank hrank.symm
        exact Std.OrientedOrd.eq_swap (α := Nat)
    | timestamp s =>
        obtain ⟨t, rfl⟩ := eq_timestamp_of_rank hrank.symm
        exact @Std.OrientedCmp.eq_swap _ Timestamp.compare _ t s
    | string s =>
        obtain ⟨t, ht⟩ := text?_of_rank hrank.symm
        rw [sortCompare_texts ht rfl, sortCompare_texts rfl ht, ← Std.OrientedOrd.eq_swap]
    | url s =>
        obtain ⟨t, ht⟩ := text?_of_rank hrank.symm
        rw [sortCompare_texts ht rfl, sortCompare_texts rfl ht, ← Std.OrientedOrd.eq_swap]
    | float x =>
        obtain ⟨y, hy⟩ := number?_of_rank hrank.symm
        rw [sortCompare_float_left hy, sortCompare_float_right hy, Binary64.compare?_swap]
    | int i =>
        cases b with
        | int j => exact Std.OrientedOrd.eq_swap (α := Int)
        | float y => rw [sortCompare_float_left rfl, sortCompare_float_right rfl, Binary64.compare?_swap]
        | _ => cases hrank
  · rw [sortCompare_of_rank_ne hrank, sortCompare_of_rank_ne (Ne.symm hrank),
      ← Std.OrientedOrd.eq_swap]

/-! ## Three values -/

/-- A float blurs two numbers, of which the first is the greater, if a sort takes it to be equal to
both: it is a NaN, or the number that both are read as. -/
inductive Blurs : Value → Value → Value → Prop
  | nan {x y z : Binary64} {a c : Value} (hx : x.isNaN = true) (ha : a.number? = some y)
      (hc : c.number? = some z) (hgt : a.sortCompare c = .gt) : Blurs (.float x) a c
  | reading {x : Binary64} {i j : Int64} (hi : (Binary64.ofInt i.toInt).sameNumber x = true)
      (hj : x.sameNumber (Binary64.ofInt j.toInt) = true) (hgt : j.toInt < i.toInt) :
      Blurs (.float x) (.int i) (.int j)

/-- Two numbers are in order if they are as floats, and as integers where both are integers. -/
theorem isLE_numbers (ha : a.number? = some x) (hb : b.number? = some y) :
    (a.sortCompare b).isLE = true ↔
      (x.isNaN = true ∨ y.isNaN = true ∨ x.rank ≤ y.rank) ∧
        ∀ i j, a = .int i → b = .int j → i.toInt ≤ j.toInt := by
  cases a with
  | float x' =>
      obtain rfl := Option.some.inj ha
      rw [sortCompare_float_left hb, Binary64.isLE_compare?]
      exact ⟨fun h => ⟨h, nofun⟩, fun h => h.1⟩
  | int i =>
      obtain rfl := Option.some.inj ha
      cases b with
      | float y' =>
          obtain rfl := Option.some.inj hb
          rw [sortCompare_float_right ha, Binary64.isLE_compare?]
          exact ⟨fun h => ⟨h, nofun⟩, fun h => h.1⟩
      | int j =>
          obtain rfl := Option.some.inj hb
          have hints : ((Value.int i).sortCompare (.int j)).isLE = true ↔ i.toInt ≤ j.toInt :=
            Int.isLE_compare
          rw [hints]
          constructor
          · intro hle
            refine ⟨.inr (.inr (Binary64.rank_ofInt_mono hle)), ?_⟩
            rintro _ _ ⟨⟩ ⟨⟩
            exact hle
          · exact fun h => h.2 i j rfl rfl
      | _ => cases hb
  | _ => cases ha

theorem isNaN_float (ha : a.number? = some x) (hx : x.isNaN = true) : a = .float x := by
  cases a with
  | float x' => rw [Option.some.inj ha]
  | int i =>
      obtain rfl := Option.some.inj ha
      rw [Binary64.isNaN_ofInt] at hx
      cases hx
  | _ => cases ha

/-- Numbers between which no float blurs the outer two are in order. -/
theorem isLE_trans_numbers (ha : a.number? = some x) (hb : b.number? = some y)
    (hc : c.number? = some z) (hab : (a.sortCompare b).isLE = true)
    (hbc : (b.sortCompare c).isLE = true) (hblurs : ¬ b.Blurs a c) :
    (a.sortCompare c).isLE = true := by
  by_contra hac
  have hgt : a.sortCompare c = .gt := by simpa [Ordering.isLE_iff_ne_gt] using hac
  obtain ⟨hfloats₁, hints₁⟩ := (isLE_numbers ha hb).mp hab
  obtain ⟨hfloats₂, hints₂⟩ := (isLE_numbers hb hc).mp hbc
  by_cases hy : y.isNaN = true
  · obtain rfl := isNaN_float hb hy
    exact hblurs (.nan hy ha hc hgt)
  have hfloats : x.isNaN = true ∨ z.isNaN = true ∨ x.rank ≤ z.rank := by
    rcases hfloats₁ with hx | hy' | hxy
    · exact .inl hx
    · exact absurd hy' hy
    rcases hfloats₂ with hy' | hz | hyz
    · exact absurd hy' hy
    · exact .inr (.inl hz)
    · exact .inr (.inr (hxy.trans hyz))
  -- so the floats are in order, and the integers are not
  rw [isLE_numbers ha hc] at hac
  obtain ⟨i, j, rfl, rfl, hlt⟩ : ∃ i j, a = .int i ∧ c = .int j ∧ j.toInt < i.toInt := by
    simpa using not_and.mp hac hfloats
  obtain rfl := Option.some.inj ha
  obtain rfl := Option.some.inj hc
  cases b with
  | int k => exact absurd ((hints₁ i k rfl rfl).trans (hints₂ k j rfl rfl)) (not_le.mpr hlt)
  | float y' =>
      obtain rfl := Option.some.inj hb
      have hy := eq_false_of_ne_true hy
      simp only [Binary64.isNaN_ofInt, hy, Bool.false_eq_true, false_or] at hfloats₁ hfloats₂
      have hread := Binary64.rank_ofInt_mono (le_of_lt hlt)
      refine hblurs (.reading ?_ ?_ hlt)
      · exact Binary64.sameNumber_iff_rank.mpr
          ⟨⟨Binary64.isNaN_ofInt _, hy⟩, hfloats₁.antisymm (hfloats₂.trans hread)⟩
      · exact Binary64.sameNumber_iff_rank.mpr
          ⟨⟨hy, Binary64.isNaN_ofInt _⟩, hfloats₂.antisymm (hread.trans hfloats₁)⟩
  | _ => cases hb

/-- A value that blurs two others stands between them, and they are not in order. -/
theorem Blurs.between (h : b.Blurs a c) :
    (a.sortCompare b).isLE = true ∧ (b.sortCompare c).isLE = true ∧ a.sortCompare c = .gt := by
  cases h with
  | nan hx ha hc hgt =>
      rw [isLE_numbers ha rfl, isLE_numbers rfl hc]
      exact ⟨⟨.inr (.inl hx), nofun⟩, ⟨.inl hx, nofun⟩, hgt⟩
  | @reading x i j hi hj hgt =>
      rw [isLE_numbers rfl rfl, isLE_numbers rfl rfl]
      obtain ⟨-, hi⟩ := Binary64.sameNumber_iff_rank.mp hi
      obtain ⟨-, hj⟩ := Binary64.sameNumber_iff_rank.mp hj
      exact ⟨⟨.inr (.inr hi.le), nofun⟩, ⟨.inr (.inr hj.le), nofun⟩, Int.compare_eq_gt.mpr hgt⟩

theorem rank_le_of_isLE (h : (a.sortCompare b).isLE = true) : a.rank ≤ b.rank := by
  by_contra hlt
  rw [sortCompare_of_rank_ne (by omega), Nat.isLE_compare] at h
  exact hlt h

/-- Values of one rank that are no numbers are in order if they are as texts, or the like. -/
theorem isLE_trans_of_rank (hab : a.rank = b.rank) (hbc : b.rank = c.rank) (hrank : b.rank ≠ 2)
    (h₁ : (a.sortCompare b).isLE = true) (h₂ : (b.sortCompare c).isLE = true) :
    (a.sortCompare c).isLE = true := by
  have htexts : b.rank = 3 → (a.sortCompare c).isLE = true := by
    intro hb
    obtain ⟨s, hs⟩ := text?_of_rank (hab.trans hb)
    obtain ⟨t, ht⟩ := text?_of_rank hb
    obtain ⟨u, hu⟩ := text?_of_rank (hbc.symm.trans hb)
    rw [sortCompare_texts hs ht] at h₁
    rw [sortCompare_texts ht hu] at h₂
    rw [sortCompare_texts hs hu]
    exact Std.TransOrd.isLE_trans h₁ h₂
  cases b with
  | string s => exact htexts rfl
  | url s => exact htexts rfl
  | null => rw [eq_null_of_rank hab, eq_null_of_rank hbc.symm]; rfl
  | bool q =>
      obtain ⟨p, rfl⟩ := eq_bool_of_rank hab
      obtain ⟨r, rfl⟩ := eq_bool_of_rank hbc.symm
      exact Std.TransOrd.isLE_trans (α := Nat) h₁ h₂
  | timestamp t =>
      obtain ⟨s, rfl⟩ := eq_timestamp_of_rank hab
      obtain ⟨u, rfl⟩ := eq_timestamp_of_rank hbc.symm
      exact @Std.TransCmp.isLE_trans _ Timestamp.compare _ s t u h₁ h₂
  | int i => exact absurd rfl hrank
  | float x => exact absurd rfl hrank

/-- **Of three values the order is transitive unless the one between blurs the others.** -/
theorem isLE_trans_iff :
    ((a.sortCompare b).isLE = true → (b.sortCompare c).isLE = true → (a.sortCompare c).isLE = true)
      ↔ ¬ b.Blurs a c := by
  constructor
  · intro htrans hblurs
    obtain ⟨hab, hbc, hgt⟩ := hblurs.between
    have hac := htrans hab hbc
    rw [hgt] at hac
    cases hac
  · intro hblurs hab hbc
    have hrank₁ := rank_le_of_isLE hab
    have hrank₂ := rank_le_of_isLE hbc
    rcases Nat.lt_or_eq_of_le (hrank₁.trans hrank₂) with hlt | heq
    · rw [sortCompare_of_rank_ne (Nat.ne_of_lt hlt), Nat.isLE_compare]
      exact hlt.le
    have hab' : a.rank = b.rank := by omega
    have hbc' : b.rank = c.rank := by omega
    by_cases hnumbers : b.rank = 2
    · obtain ⟨x, hx⟩ := number?_of_rank (hab'.trans hnumbers)
      obtain ⟨y, hy⟩ := number?_of_rank hnumbers
      obtain ⟨z, hz⟩ := number?_of_rank (hbc'.symm.trans hnumbers)
      exact isLE_trans_numbers hx hy hz hab hbc hblurs
    · exact isLE_trans_of_rank hab' hbc' hnumbers hab hbc

/-- What attributes of one kind hold is never blurred. -/
theorem not_blurs_of_holds {kind : ValueKind} (ha : kind.Holds a) (hb : kind.Holds b) :
    ¬ b.Blurs a c := by
  intro h
  cases h with
  | nan hx => exact absurd hb.number (by rw [isNaN, hx]; decide)
  | reading =>
      obtain rfl := ha.kindOf _ rfl
      cases hb.kindOf _ rfl

/-- No value blurs two others. -/
def Unblurred (values : Set Value) : Prop :=
  ∀ a ∈ values, ∀ b ∈ values, ∀ c ∈ values, ¬ b.Blurs a c

/-- Values of one kind are not blurred. -/
theorem unblurred_of_holds {kind : ValueKind} {values : Set Value} (h : ∀ v ∈ values, kind.Holds v) :
    Unblurred values :=
  fun _ ha _ hb _ _ => not_blurs_of_holds (h _ ha) (h _ hb)

/-- Items are ordered consistently by a value of each exactly if none of their values is blurred. -/
theorem transCmp_iff {α : Type} {items : Set α} {f : α → Value} :
    (Std.TransCmp fun x y : items => (f x).sortCompare (f y)) ↔ Unblurred (f '' items) := by
  constructor
  · rintro hcmp _ ⟨x, hx, rfl⟩ _ ⟨y, hy, rfl⟩ _ ⟨z, hz, rfl⟩
    exact isLE_trans_iff.mp (hcmp.isLE_trans (a := ⟨x, hx⟩) (b := ⟨y, hy⟩) (c := ⟨z, hz⟩))
  · intro hvalues
    exact
      { eq_swap := sortCompare_swap _ _
        isLE_trans := fun {x y z} => isLE_trans_iff.mpr (hvalues _ ⟨x, x.2, rfl⟩ _ ⟨y, y.2, rfl⟩ _
          ⟨z, z.2, rfl⟩) }

end Value

/-! ## Sorting -/

namespace Sorting

variable {α : Type} {cmp : α → α → Ordering}

theorem pairwise_insertDescending [Std.TransCmp cmp] (x : α) {ys : List α}
    (h : ys.Pairwise fun y z => (cmp z y).isLE = true) :
    (insertDescending cmp x ys).Pairwise fun y z => (cmp z y).isLE = true := by
  induction ys with
  | nil => exact List.pairwise_singleton _ _
  | cons y rest ih =>
      obtain ⟨hy, hrest⟩ := List.pairwise_cons.mp h
      rw [insertDescending]
      split
      · next hlt =>
        refine List.pairwise_cons.mpr ⟨fun z hz => ?_, ih hrest⟩
        rcases List.mem_cons.mp ((insertDescending_perm cmp x rest).mem_iff.mp hz) with rfl | hz
        · rw [hlt]; rfl
        · exact hy z hz
      · next hnot =>
        have hyx : (cmp y x).isLE = true := by
          rw [@Std.OrientedCmp.eq_swap _ cmp, Ordering.isLE_iff_ne_gt, Ordering.swap_eq_gt]
          exact hnot
        refine List.pairwise_cons.mpr ⟨List.forall_mem_cons.mpr ⟨hyx, fun z hz => ?_⟩, h⟩
        exact Std.TransCmp.isLE_trans (hy z hz) hyx

theorem pairwise_sort [Std.TransCmp cmp] (xs : List α) :
    (sort cmp xs).Pairwise fun x y => (cmp x y).isLE = true := by
  rw [sort, List.pairwise_reverse, descending]
  have hfold : ∀ sorted : List α, sorted.Pairwise (fun y z => (cmp z y).isLE = true) →
      (xs.foldl (fun sorted x => insertDescending cmp x sorted) sorted).Pairwise
        fun y z => (cmp z y).isLE = true := by
    induction xs with
    | nil => exact fun _ h => h
    | cons x rest ih => exact fun sorted h => ih _ (pairwise_insertDescending x h)
  exact hfold [] .nil

/-- **A consistent comparator sorts**: no item stands before a smaller one. -/
theorem pairwise_sort_of_mem {items : Set α} (hcmp : Std.TransCmp fun a b : items => cmp a b)
    {xs : List α} (hxs : ∀ x ∈ xs, x ∈ items) :
    (sort cmp xs).Pairwise fun x y => (cmp x y).isLE = true := by
  obtain ⟨ys, rfl⟩ : ∃ ys : List items, ys.map Subtype.val = xs :=
    ⟨xs.attach.map fun x => ⟨x.1, hxs x.1 x.2⟩, by simp⟩
  rw [@sort_map _ _ (fun a b : items => cmp a b) cmp _ _ fun _ _ _ _ => rfl, List.pairwise_map]
  exact pairwise_sort ys

/-! ## Ties keep their order

An item goes behind every earlier one that it is not less than, so of two items that are tied the one
that came first stays first. As with the order itself this takes a comparison that is consistent over
the items that are sorted; whatever the comparison, no item is lost and none is doubled.
-/

/-- A comparison that is consistent over the items of a list is one of these items alone. -/
theorem consistent_iff {xs : List α} :
    Consistent cmp xs ↔ Std.TransCmp fun a b : {x | x ∈ xs} => cmp a b := by
  simp only [Consistent, ne_eq, ← Ordering.isLE_iff_ne_gt]
  constructor
  · rintro ⟨hswap, htrans⟩
    exact {
      eq_swap := fun {a b} => hswap b b.2 a a.2
      isLE_trans := fun {a b c} => htrans a a.2 b b.2 c c.2 }
  · intro h
    refine ⟨fun x hx y hy => ?_, fun x hx y hy z hz hxy hyz => ?_⟩
    · exact h.eq_swap (a := ⟨y, hy⟩) (b := ⟨x, hx⟩)
    · exact h.isLE_trans (a := ⟨x, hx⟩) (b := ⟨y, hy⟩) (c := ⟨z, hz⟩) hxy hyz

/-- A list has been put in order: it has the items it had, and if the comparison is consistent over
them, none stands before a lesser one, and those that are tied with each other stand as they did. -/
structure Arranges (cmp : α → α → Ordering) (xs ys : List α) : Prop where
  perm : ys.Perm xs
  ordered : Consistent cmp xs → ys.Pairwise fun a b => (cmp a b).isLE = true
  ties : Consistent cmp xs → ∀ x ∈ xs,
    ys.filter (fun y => cmp x y == .eq) = xs.filter fun y => cmp x y == .eq

/-- What an item steps over is greater than whatever the item is tied with. -/
theorem filter_insertDescending [Std.TransCmp cmp] (x y : α) (ys : List α) :
    (insertDescending cmp y ys).filter (fun z => cmp x z == .eq)
      = (y :: ys).filter fun z => cmp x z == .eq := by
  induction ys with
  | nil => rfl
  | cons z rest ih =>
    rw [insertDescending]
    split
    · next hlt =>
      by_cases htied : cmp x y = .eq
      · have hnot : cmp x z ≠ .eq := by
          intro heq
          rw [Std.TransCmp.congr_left htied, hlt] at heq
          cases heq
        rw [List.filter_cons_of_neg (by simpa using hnot), ih,
          List.filter_cons_of_pos (by simpa using htied),
          List.filter_cons_of_pos (by simpa using htied),
          List.filter_cons_of_neg (by simpa using hnot)]
      · rw [List.filter_cons, ih, List.filter_cons_of_neg (by simpa using htied),
          List.filter_cons_of_neg (by simpa using htied), List.filter_cons]
    · rfl

theorem filter_foldl_insertDescending [Std.TransCmp cmp] (x : α) (xs sorted : List α) :
    (xs.foldl (fun sorted y => insertDescending cmp y sorted) sorted).filter
        (fun z => cmp x z == .eq)
      = (xs.reverse ++ sorted).filter fun z => cmp x z == .eq := by
  induction xs generalizing sorted with
  | nil => rfl
  | cons y rest ih =>
    rw [List.foldl_cons, ih, List.reverse_cons, List.append_assoc, List.filter_append,
      filter_insertDescending, ← List.filter_append]
    rfl

theorem filter_sort [Std.TransCmp cmp] (x : α) (xs : List α) :
    (sort cmp xs).filter (fun z => cmp x z == .eq) = xs.filter fun z => cmp x z == .eq := by
  have hfold := @filter_foldl_insertDescending _ cmp _ x xs []
  rw [List.append_nil, List.filter_reverse] at hfold
  rw [sort, List.filter_reverse, descending, hfold, List.reverse_reverse]

/-- **Sorting puts a list in order.** -/
theorem arranges_sort (cmp : α → α → Ordering) (xs : List α) : Arranges cmp xs (sort cmp xs) where
  perm := sort_perm cmp xs
  ordered := fun hcmp => pairwise_sort_of_mem (consistent_iff.mp hcmp) fun _ hx => hx
  ties := by
    -- over the items of the list alone the comparison is consistent everywhere
    intro hcmp x hx
    let tied : α → Bool := fun y => cmp x y == .eq
    let among : {x | x ∈ xs} → {x | x ∈ xs} → Ordering := fun a b => cmp a b
    have : Std.TransCmp among := consistent_iff.mp hcmp
    have hlist : xs.attach.map Subtype.val = xs := List.attach_map_subtype_val xs
    have hsort : sort cmp xs = (sort among xs.attach).map Subtype.val := by
      conv_lhs => rw [← hlist]
      exact sort_map fun _ _ _ _ => rfl
    calc (sort cmp xs).filter tied
      _ = ((sort among xs.attach).filter (tied ∘ Subtype.val)).map Subtype.val := by
        rw [hsort, List.filter_map]
      _ = (xs.attach.filter (tied ∘ Subtype.val)).map Subtype.val :=
        congrArg (List.map Subtype.val) (@filter_sort _ among _ ⟨x, hx⟩ xs.attach)
      _ = xs.filter tied := by rw [← List.filter_map, hlist]

/-- **Any routine puts a list in order**, if it does not give up. -/
theorem arranges_of_sort? {sorter : Sorter α} {xs ys : List α} (h : sorter.sort? cmp xs = some ys) :
    Arranges cmp xs ys := by
  by_cases hcmp : Consistent cmp xs
  · obtain rfl := Option.some.inj (h.symm.trans (sorter.settled hcmp))
    exact arranges_sort cmp xs
  · exact ⟨sorter.perm h, fun hcmp' => absurd hcmp' hcmp, fun hcmp' => absurd hcmp' hcmp⟩

/-- It gives up on no list over which the comparison is consistent. -/
theorem not_consistent_of_sort? {sorter : Sorter α} {xs : List α} (h : sorter.sort? cmp xs = none) :
    ¬ Consistent cmp xs := by
  intro hcmp
  rw [sorter.settled hcmp] at h
  cases h

/-- A comparison by which no item is less than another leaves a list as it is. -/
theorem sort_of_not_lt (hcmp : ∀ a b, cmp a b ≠ .lt) (xs : List α) : sort cmp xs = xs := by
  have hinsert : ∀ x ys, insertDescending cmp x ys = x :: ys := by
    intro x ys
    cases ys with
    | nil => rfl
    | cons y rest => rw [insertDescending, if_neg (hcmp x y)]
  have hfold : (fun sorted x => insertDescending cmp x sorted) = fun sorted x => x :: sorted :=
    funext fun sorted => funext fun x => hinsert x sorted
  rw [sort, descending, hfold, List.foldl_flip_cons_eq_append', List.append_nil, List.reverse_reverse]

end Sorting

/-! ## Comparators -/

section Comparators

variable {pool : Pool} {items : Set Handle}

/-- **A sort key is consistent exactly over items of which it reads no blurred values.** -/
theorem SortKey.transCmp_iff (k : SortKey) :
    (Std.TransCmp fun a b : items => k.compare pool a b)
      ↔ Value.Unblurred (pool.sortKey k.path '' items) := by
  rw [← Value.transCmp_iff]
  obtain ⟨path, direction⟩ := k
  cases direction with
  | asc => exact Iff.rfl
  | desc =>
      have hswap : (fun a b : items => SortKey.compare pool ⟨path, .desc⟩ a b)
          = fun a b : items => (pool.sortKey path b).sortCompare (pool.sortKey path a) :=
        funext fun a => funext fun b => (Value.sortCompare_swap _ _).symm
      rw [hswap]
      exact ⟨fun h => h.opposite, fun h => h.opposite⟩

theorem Comparator.transCmp_compareByKeys {keys : List SortKey}
    (h : ∀ k ∈ keys, Std.TransCmp fun a b : items => k.compare pool a b) :
    Std.TransCmp fun a b : items => compareByKeys pool a b keys := by
  induction keys with
  | nil => exact { eq_swap := rfl, isLE_trans := fun _ _ => rfl }
  | cons k rest ih =>
      have hfirst := h k List.mem_cons_self
      have hrest := ih fun k' hk' => h k' (List.mem_cons_of_mem _ hk')
      exact inferInstanceAs (Std.TransCmp (compareLex (fun a b : items => k.compare pool a b)
        fun a b : items => compareByKeys pool a b rest))

variable {schema : Schema} {root : String} {spec : OrderSpec} {comparator : Comparator}

/-- **The order of values is one, and a comparator made of a specification sorts consistently, unless
values are blurred.** The two directions of a comparison mirror each other; it is transitive for three
values exactly if the one between does not blur the others; a comparator is consistent over items of
which no key reads blurred values, and puts them in order; a single key is consistent over no others. -/
theorem OrderSpec.consistent_of_unblurred (h : spec.compile schema root = .ok comparator) :
    (∀ a b : Value, b.sortCompare a = (a.sortCompare b).swap) ∧
      (∀ a b c : Value,
        (a.sortCompare b ≠ .gt → b.sortCompare c ≠ .gt → a.sortCompare c ≠ .gt) ↔ ¬ b.Blurs a c) ∧
      ∀ (pool : Pool) (items : Set Handle),
        ((∀ k ∈ spec.keys, Value.Unblurred (pool.sortKey (Path.segments k.path) '' items)) →
          (Std.TransCmp fun a b : items => comparator.compare pool a b) ∧
            ∀ handles : List Handle, (∀ h ∈ handles, h ∈ items) →
              (comparator.sort pool handles).Pairwise
                fun a b => comparator.compare pool a b ≠ .gt) ∧
          ∀ k, spec = .key k →
            ((Std.TransCmp fun a b : items => comparator.compare pool a b)
              ↔ Value.Unblurred (pool.sortKey (Path.segments k.path) '' items)) := by
  refine ⟨Value.sortCompare_swap, fun a b c => ?_, fun pool items => ⟨fun hvalues => ?_, ?_⟩⟩
  · simp only [ne_eq, ← Ordering.isLE_iff_ne_gt]
    exact Value.isLE_trans_iff
  · have hcmp : Std.TransCmp fun a b : items => comparator.compare pool a b := by
      simp only [Comparator.compare_eq_compareByKeys]
      refine Comparator.transCmp_compareByKeys fun k hk => (SortKey.transCmp_iff k).mpr ?_
      rw [OrderSpec.keys_of_compile spec h] at hk
      obtain ⟨key, hkey, rfl⟩ := List.mem_map.mp hk
      exact hvalues key hkey
    refine ⟨hcmp, fun handles hhandles => ?_⟩
    simp only [ne_eq, ← Ordering.isLE_iff_ne_gt]
    exact Sorting.pairwise_sort_of_mem hcmp hhandles
  · rintro k rfl
    obtain rfl := OrderSpec.compile_key h
    exact SortKey.transCmp_iff _

open Samples

/-- Two tags are sorted by their weights, the heavier first, and by their names. -/
theorem OrderSpec.consistent_of_unblurred_tags :
    let spec : OrderSpec := .conjunction [.key ⟨"weight", .desc⟩, .key ⟨"name", .asc⟩]
    let pool := (Pool.empty.allocAll [tagNamed (some 1) "red", tagNamed (some 2) "blue"]).2
    ∃ comparator, spec.compile (Schema.ofList [tag]) "tag" = .ok comparator ∧
      Std.TransCmp fun a b : ({0, 1} : Set Handle) => comparator.compare pool a b := by
  intro spec pool
  have hcompile : spec.compile (Schema.ofList [tag]) "tag"
      = .ok (.chain [.key ⟨["weight"], .desc⟩, .key ⟨["name"], .asc⟩]) := by cbv
  refine ⟨_, hcompile, ?_⟩
  refine (((OrderSpec.consistent_of_unblurred hcompile).2.2 pool {0, 1}).1 fun k hk => ?_).1
  obtain ⟨kind, hkind⟩ : ∃ kind : ValueKind, ∀ h ∈ [0, 1],
      kind.Holds (pool.sortKey (Path.segments k.path) h) := by
    rcases List.mem_cons.mp hk with rfl | hk
    · exact ⟨.float, by decide +kernel⟩
    · obtain rfl := List.mem_singleton.mp hk
      exact ⟨.string, by decide +kernel⟩
  refine @Value.unblurred_of_holds kind _ ?_
  rintro _ ⟨h, hh, rfl⟩
  exact hkind h (by simpa using hh)

/-- Of two integers next to each other beyond the 53 bits of a float, the greater is not greater than
the float they are both read as, nor that greater than the lesser. -/
theorem Value.not_transitive_of_float_between :
    let a : Value := .int 9007199254740993
    let b : Value := .float (Binary64.ofInt 9007199254740992)
    let c : Value := .int 9007199254740992
    a.sortCompare b ≠ .gt ∧ b.sortCompare c ≠ .gt ∧ a.sortCompare c = .gt := by
  decide +kernel

end Comparators

end EntityStore
