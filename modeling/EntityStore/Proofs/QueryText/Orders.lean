import EntityStore.Proofs.QueryText.Formed
import EntityStore.QueryText.Meaning

/-!
# Orders in query text

An order is written key by key with `~` between them, however its keys are nested; a conjunction
without keys leaves nothing between two separators, which the reader skips. **The text of an order
reads back as its keys**, all on one level. An order that comes from a text is on one level already,
so it comes back as it is. Unlike a filter, an order may begin with any attribute name: its reader
knows no words for separators.
-/

namespace EntityStore.QueryText

open Text

/-! ## Pieces of an order -/

/-- What may follow a sort key. -/
inductive KeyEnd : List Char → Prop
  | stop : KeyEnd []
  | tilde (rest : List Char) : KeyEnd ('~' :: rest)

theorem KeyEnd.ends {rest : List Char} (h : KeyEnd rest) : Ends rest := by
  cases h with
  | stop => exact .stop
  | tilde rest => exact .tilde rest

/-- After a sort key it does not matter whether another one may come next: a separator or nothing
does. -/
theorem KeyEnd.readOrderKeys_eq {rest : List Char} (h : KeyEnd rest) {position : Nat} {ts : List Token}
    (hts : tokensFrom position rest = .ok ts) (size : Nat) (separated : Bool) :
    readOrderKeys size separated ts = readOrderKeys size true ts := by
  cases h with
  | stop =>
      rw [tokensFrom] at hts
      obtain rfl := Except.ok.inj hts
      rw [readOrderKeys, readOrderKeys]
  | tilde rest =>
      obtain ⟨ts', -, rfl⟩ := mark_of_tokensFrom .tilde rfl hts
      rw [readOrderKeys, readOrderKeys]
      rfl

/-- The text is read as sort keys wherever a piece of an order may stand. -/
def ReadsKeys (cs : List Char) (ks : List OrderKey) : Prop :=
  ∀ position rest ts, KeyEnd rest → tokensFrom (position + byteLength cs) rest = .ok ts →
    ∃ toks, tokensFrom position (cs ++ rest) = .ok (toks ++ ts) ∧
      ∀ size keys, readOrderKeys size true ts = .ok keys →
        readOrderKeys size true (toks ++ ts) = .ok (ks ++ keys)

theorem readsKeys_nil : ReadsKeys [] [] :=
  fun _ _ _ _ hts => ⟨[], hts, fun _ _ h => h⟩

/-- **Two pieces with `~` between them.** -/
theorem ReadsKeys.tilde {a b : List Char} {ka kb : List OrderKey} (ha : ReadsKeys a ka)
    (hb : ReadsKeys b kb) : ReadsKeys (a ++ '~' :: b) (ka ++ kb) := by
  intro position rest ts hrest hts
  have hsize : ('~' : Char).utf8Size = 1 := rfl
  simp only [byteLength_append, byteLength_cons, hsize, ← Nat.add_assoc] at hts
  obtain ⟨tb, hcutb, hreadb⟩ := hb _ rest ts hrest hts
  have htilde : tokensFrom (position + byteLength a) ('~' :: (b ++ rest))
      = .ok (⟨.tilde, ['~'], position + byteLength a⟩ :: (tb ++ ts)) :=
    (isToken_mark rfl _).tokensFrom_ok hcutb
  obtain ⟨ta, hcuta, hreada⟩ := ha position _ _ (.tilde _) htilde
  refine ⟨ta ++ ⟨.tilde, ['~'], position + byteLength a⟩ :: tb, ?_, fun size keys hkeys => ?_⟩
  · simpa only [List.append_assoc, List.cons_append] using hcuta
  · have hskip : readOrderKeys size true (⟨.tilde, ['~'], position + byteLength a⟩ :: (tb ++ ts))
        = .ok (kb ++ keys) := by
      rw [readOrderKeys]
      exact hreadb size keys hkeys
    simpa only [List.append_assoc, List.cons_append] using hreada size _ hskip

/-- **Pieces with `~` between them are read one after the other.** -/
theorem readsKeys_tildes {css : List (List Char)} {kss : List (List OrderKey)}
    (h : List.Forall₂ ReadsKeys css kss) : ReadsKeys (['~'].intercalate css) kss.flatten := by
  induction h with
  | nil => exact readsKeys_nil
  | @cons cs ks css kss hcs hcss ih =>
      cases hcss with
      | nil =>
          rw [List.intercalate_singleton, List.flatten_singleton]
          exact hcs
      | @cons cs' ks' css kss _ _ =>
          rw [List.intercalate_cons_cons, List.append_assoc, List.singleton_append, List.flatten_cons]
          exact hcs.tilde ih

/-! ## Sort keys -/

theorem isWord_directionName (d : Direction) : IsWord d.name.toList := by
  cases d <;> exact isWord_of_all rfl rfl

/-- The reader takes a sort key off the front of an order. -/
theorem readOrderKeys_key {size : Nat} {w : Token} {ts rest : List Token} {k : OrderKey}
    {keys : List OrderKey} (hw : w.kind = .word) (hkey : readOrderKey size w ts = .ok (k, rest))
    (hrest : readOrderKeys size false rest = .ok keys) :
    readOrderKeys size true (w :: ts) = .ok (k :: keys) := by
  rw [readOrderKeys.eq_def]
  simp only [hw, reduceCtorEq, if_false, and_self, if_true]
  split
  · rename_i h
    rw [hkey] at h
    cases h
  · rename_i h
    rw [hkey] at h
    obtain ⟨rfl, rfl⟩ := Prod.mk.inj (Except.ok.inj h)
    rw [hrest]

/-- The reader knows the name of a direction. -/
theorem readOrderKey_direction {size : Nat} {w colon word : Token} {ts rest : List Token}
    {segments : List String} {d : Direction}
    (hpath : readPathRest size ts = .ok (segments, colon :: word :: rest))
    (hcolon : colon.kind = .colon) (hword : word.kind = .word) (hname : word.text = d.name.toList) :
    readOrderKey size w ts = .ok (⟨attributePath (String.ofList w.text :: segments), d⟩, rest) := by
  rw [readOrderKey, hpath]
  simp only [expect, if_pos hcolon, if_pos hword, hname]
  cases d <;> rfl

/-- **A written sort key is read as that key.** -/
theorem readsKeys_writeKey {k : OrderKey} (h : IsAttributePath k.path) :
    ReadsKeys (writeKey k).toList [k] := by
  intro position rest ts hrest hts
  obtain ⟨first, others, hsegments⟩ := exists_writtenSegments k.path
  have hwords := h.isWord_of_mem
  have hpath := h.attributePath_eq
  rw [hsegments] at hwords hpath
  have htext : (writeKey k).toList = first ++ (dotted others ++ ':' :: k.direction.name.toList) := by
    simp [writeKey, toList_writtenPath, hsegments, intercalate_dot]
  have hsize : (':' : Char).utf8Size = 1 := rfl
  rw [htext] at hts ⊢
  simp only [byteLength_append, byteLength_cons, hsize, ← Nat.add_assoc] at hts
  -- from the back: the direction, the colon before it, and the path
  obtain ⟨word, hdirection, hword, hname⟩ : ∃ t : Token,
      tokensFrom _ (k.direction.name.toList ++ rest) = .ok (t :: ts) ∧ t.kind = .word ∧
        t.text = k.direction.name.toList :=
    ⟨_, (isToken_word (isWord_directionName k.direction)
      hrest.ends.boundary.wordEnd).tokensFrom_ok hts, rfl, rfl⟩
  obtain ⟨colon, hmark, hcolon⟩ : ∃ t : Token,
      tokensFrom _ (':' :: (k.direction.name.toList ++ rest)) = .ok (t :: word :: ts) ∧
        t.kind = .colon :=
    ⟨⟨.colon, [':'], _⟩, (isToken_mark rfl _).tokensFrom_ok hdirection, rfl⟩
  obtain ⟨path, hcutp, hreadp⟩ := readPathRest_dotted
    (fun w hw => hwords w (List.mem_cons_of_mem _ hw)) (wordEnd_colon hdirection) hmark
    (by rintro t ⟨⟩; simp [hcolon])
  have hfirst := (isToken_word (hwords first List.mem_cons_self)
    (wordEnd_dotted (wordEnd_colon hdirection))).tokensFrom_ok hcutp
  refine ⟨⟨.word, first, position⟩ :: (path ++ [colon, word]), ?_, fun size keys hkeys => ?_⟩
  · simpa only [List.append_assoc, List.cons_append, List.nil_append] using hfirst
  · have hkey : readOrderKey size ⟨.word, first, position⟩ (path ++ colon :: word :: ts)
        = .ok (⟨attributePath ((first :: others).map String.ofList), k.direction⟩, ts) :=
      readOrderKey_direction (hreadp size) hcolon hword hname
    rw [hpath] at hkey
    simpa only [List.append_assoc, List.cons_append, List.nil_append] using
      readOrderKeys_key rfl hkey ((hrest.readOrderKeys_eq hts size false).trans hkeys)

/-! ## Written orders -/

theorem keysOfList_eq (specs : List OrderSpec) :
    OrderSpec.keysOfList specs = (specs.map OrderSpec.keys).flatten := by
  induction specs with
  | nil => rfl
  | cons spec specs ih => rw [OrderSpec.keysOfList, ih, List.map_cons, List.flatten_cons]

mutual

/-- **A written order is read as its keys.** Along the tree of the order. -/
theorem readsKeys_writeOrder {spec : OrderSpec} (h : ∀ k ∈ spec.keys, IsAttributePath k.path) :
    ReadsKeys (writeOrder spec).toList spec.keys := by
  cases spec with
  | key k => exact readsKeys_writeKey (h k (List.mem_singleton_self k))
  | conjunction children =>
      rw [writeOrder, OrderSpec.keys, keysOfList_eq, String.toList_intercalate]
      exact readsKeys_tildes (readsKeys_writeOrders h)

@[inherit_doc readsKeys_writeOrder]
theorem readsKeys_writeOrders {specs : List OrderSpec}
    (h : ∀ k ∈ OrderSpec.keysOfList specs, IsAttributePath k.path) :
    List.Forall₂ ReadsKeys ((writeOrders specs).map String.toList) (specs.map OrderSpec.keys) := by
  cases specs with
  | nil => exact .nil
  | cons spec specs =>
      rw [OrderSpec.keysOfList] at h
      exact .cons (readsKeys_writeOrder fun k hk => h k (List.mem_append_left _ hk))
        (readsKeys_writeOrders fun k hk => h k (List.mem_append_right _ hk))

end

/-- An order on one level, as the reader makes it. -/
def levelOrder (ks : List OrderKey) : OrderSpec := .all (ks.map .key)

theorem flatMap_parts_key (ks : List OrderKey) :
    (ks.map OrderSpec.key).flatMap OrderSpec.parts = ks.map .key := by
  induction ks with
  | nil => rfl
  | cons k ks ih => rw [List.map_cons, List.flatMap_cons, ih]; rfl

@[simp]
theorem keys_levelOrder (ks : List OrderKey) : (levelOrder ks).keys = ks := by
  have hkeys : OrderSpec.keysOfList (ks.map .key) = ks := by
    rw [keysOfList_eq, List.map_map]
    exact List.flatMap_singleton' ks
  rw [levelOrder, OrderSpec.all, flatMap_parts_key]
  match ks, hkeys with
  | [], _ => rfl
  | [k], _ => rfl
  | k :: k' :: ks, hkeys => exact hkeys

/-- **The text of an order reads back as its keys, on one level.** -/
theorem parseOrder_writeOrder {spec : OrderSpec} (hne : spec.keys ≠ [])
    (h : ∀ k ∈ spec.keys, IsAttributePath k.path) :
    parseOrder (writeOrder spec) = .ok (levelOrder spec.keys) := by
  obtain ⟨toks, hcut, hread⟩ := readsKeys_writeOrder h 0 [] [] .stop (by rw [tokensFrom])
  rw [List.append_nil, List.append_nil] at hcut
  have hkeys := hread (byteLength (writeOrder spec).toList) [] (by rw [readOrderKeys])
  rw [List.append_nil, List.append_nil] at hkeys
  rw [parseOrder, readOrder, tokens, hcut]
  dsimp only
  rw [hkeys]
  obtain ⟨k, ks, heq⟩ := List.exists_cons_of_ne_nil hne
  rw [heq]
  rfl

/-! ## Orders of texts -/

/-- What is read as a sort key is a path of attribute names with a direction. -/
theorem path_of_readOrderKey {size : Nat} {w : Token} {ts rest : List Token} {k : OrderKey}
    (hcut : ∀ t ∈ w :: ts, t.Cut) (hword : w.kind = .word)
    (h : readOrderKey size w ts = .ok (k, rest)) : IsAttributePath k.path ∧ rest ⊆ ts := by
  unfold readOrderKey at h
  split at h
  · cases h
  case h_2 segments ts₁ hpath =>
    obtain ⟨⟨ws, rfl, hws⟩, hsub⟩ :=
      isWord_of_readPathRest (fun t ht => hcut t (List.mem_cons_of_mem _ ht)) hpath
    have hwords : ∀ v ∈ w.text :: ws, IsWord v :=
      List.forall_mem_cons.mpr ⟨(hcut w List.mem_cons_self).word hword, hws⟩
    have hattribute := isAttributePath_attributePath (by simp) hwords
    split at h
    · cases h
    case h_2 colon ts₂ hcolon =>
      obtain ⟨rfl, -⟩ := expect_eq_ok hcolon
      split at h
      · cases h
      case h_2 direction ts₃ hdirection =>
        obtain ⟨rfl, -⟩ := expect_eq_ok hdirection
        have hrest : ts₃ ⊆ ts := fun t ht =>
          hsub (List.mem_cons_of_mem _ (List.mem_cons_of_mem _ ht))
        dsimp only at h
        split at h
        · obtain ⟨rfl, rfl⟩ := Prod.mk.inj (Except.ok.inj h)
          exact ⟨hattribute, hrest⟩
        · split at h
          · obtain ⟨rfl, rfl⟩ := Prod.mk.inj (Except.ok.inj h)
            exact ⟨hattribute, hrest⟩
          · cases h

/-- **The keys of an order that is read have paths of attribute names.** -/
theorem path_of_readOrderKeys {size : Nat} {separated : Bool} {ts : List Token}
    {keys : List OrderKey} (hcut : ∀ t ∈ ts, t.Cut) (h : readOrderKeys size separated ts = .ok keys) :
    ∀ k ∈ keys, IsAttributePath k.path := by
  fun_induction readOrderKeys size separated ts generalizing keys with
  | case1 =>
      obtain rfl := Except.ok.inj h
      exact List.forall_mem_nil _
  | case2 separated t rest htilde ih => exact ih (fun u hu => hcut u (List.mem_cons_of_mem _ hu)) h
  | case3 => cases h
  | case4 => cases h
  | case5 separated t rest htilde hword k rest' hkey hlength keys' hkeys ih =>
      obtain rfl := Except.ok.inj h
      obtain ⟨hk, hsub⟩ := path_of_readOrderKey hcut hword.1 hkey
      exact List.forall_mem_cons.mpr
        ⟨hk, ih (fun u hu => hcut u (List.mem_cons_of_mem _ (hsub hu))) hkeys⟩
  | case6 => cases h

/-- An order that comes from a text is on one level, with a key at least. -/
theorem exists_keys_of_parseOrder {s : String} {spec : OrderSpec} (h : parseOrder s = .ok spec) :
    ∃ ks : List OrderKey, ks ≠ [] ∧ (∀ k ∈ ks, IsAttributePath k.path) ∧ spec = levelOrder ks := by
  unfold parseOrder at h
  split at h
  · cases h
  case h_2 spec' hread =>
    obtain rfl := Except.ok.inj h
    unfold readOrder at hread
    split at hread
    · cases hread
    case h_2 ts hcut =>
      split at hread
      · cases hread
      · cases hread
      case h_3 ks hnil hkeys =>
        exact ⟨ks, fun hks => hnil (hks ▸ rfl), path_of_readOrderKeys (cut_of_tokensFrom hcut) hkeys,
          (Except.ok.inj hread).symm⟩

/-- The keys that are read tell the order. -/
theorem parseOrder_eq_of_keys {s : String} {ks : List OrderKey}
    (h : (parseOrder s).toOption.map OrderSpec.keys = some ks) : parseOrder s = .ok (levelOrder ks) := by
  cases hread : parseOrder s with
  | error e =>
      rw [hread] at h
      cases h
  | ok spec =>
      obtain ⟨ks', -, -, rfl⟩ := exists_keys_of_parseOrder hread
      rw [hread] at h
      have hkeys : (levelOrder ks').keys = ks := Option.some.inj h
      rw [keys_levelOrder] at hkeys
      rw [hkeys]

/-- **The text of an order reads back with the same keys, and the order of a text comes back as it
is.** The keys have to be there, on paths of attribute names; nesting does not matter. -/
theorem parseOrder_writeOrder_keeps_keys :
    (∀ spec : OrderSpec, spec.keys ≠ [] → (∀ k ∈ spec.keys, IsAttributePath k.path) →
      ∃ spec', parseOrder (writeOrder spec) = .ok spec' ∧ spec'.keys = spec.keys) ∧
    ∀ (s : String) (spec : OrderSpec), parseOrder s = .ok spec →
      parseOrder (writeOrder spec) = .ok spec := by
  refine ⟨fun spec hne hpaths => ?_, fun s spec hread => ?_⟩
  · exact ⟨levelOrder spec.keys, parseOrder_writeOrder hne hpaths, keys_levelOrder _⟩
  · obtain ⟨ks, hne, hpaths, rfl⟩ := exists_keys_of_parseOrder hread
    have hkeys := keys_levelOrder ks
    rw [parseOrder_writeOrder (by rwa [hkeys]) (by rwa [hkeys]), hkeys]

/-- An order with a conjunction in it that has no keys, and a text with stray separators. -/
theorem parseOrder_writeOrder_keeps_keys_born_on :
    (∃ spec', parseOrder (writeOrder (.conjunction
        [.conjunction [], .conjunction [.key ⟨"owner.born_on", .desc⟩], .key ⟨"name", .asc⟩]))
        = .ok spec' ∧ spec'.keys = [⟨"owner.born_on", .desc⟩, ⟨"name", .asc⟩]) ∧
      parseOrder "~owner.born-on:DESC~~name:asc" = .ok (.conjunction
        [.key ⟨"owner.born_on", .desc⟩, .key ⟨"name", .asc⟩]) ∧
      parseOrder (writeOrder (.conjunction [.key ⟨"owner.born_on", .desc⟩, .key ⟨"name", .asc⟩]))
        = .ok (.conjunction [.key ⟨"owner.born_on", .desc⟩, .key ⟨"name", .asc⟩]) := by
  have hkeys : (parseOrder "~owner.born-on:DESC~~name:asc").toOption.map OrderSpec.keys
      = some [⟨"owner.born_on", .desc⟩, ⟨"name", .asc⟩] := by decide +kernel
  have hread := parseOrder_eq_of_keys hkeys
  exact ⟨parseOrder_writeOrder_keeps_keys.1 _ (by decide) (by decide), hread,
    parseOrder_writeOrder_keeps_keys.2 _ _ hread⟩

end EntityStore.QueryText
