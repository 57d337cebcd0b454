import EntityStore.Proofs.Cache.Identity
import EntityStore.Samples.Stores

/-!
# Three ways to admit a list

What a loader yields is made into a cache at once. In a session entities are added to a cache one
after the other. When a commit is about to go through, the lists it has come to are checked. Each
of the three has its own way of telling which keys are taken: the indexes made so far, the indexes
rebuilt for every addition, the keys seen in the list. **They admit the same lists, and of any other
list they refuse the same entity with the same error**: the first one that has the id of an earlier
one or, where its id is free, the slug of one. Entities that are listed twice are left out of this,
as adding one again is no error.
-/

namespace EntityStore

namespace Cache

/-- Add entities one after the other, up to the first that is refused. -/
def addAll (pool : Pool) : List Handle → Cache → Except StoreError Unit × Cache
  | [], c => (.ok (), c)
  | h :: rest, c =>
    match c.add pool h with
    | (.ok (), c) => addAll pool rest c
    | (.error e, c) => (.error e, c)

/-- A way to admit a list of entities. -/
inductive Route where
  /-- A cache is built from the list. -/
  | building
  /-- The entities are added to an empty cache. -/
  | adding
  /-- A cache that lists the entities is checked, whatever its indexes. -/
  | checking (c : Cache)

/-- What is said of a list that is to be admitted. -/
def Route.outcome (pool : Pool) (type : String) (hs : List Handle) : Route → Except StoreError Unit
  | building => (ofEntities pool type hs).map fun _ => ()
  | adding => ((empty type).addAll pool hs).1
  | checking c => { c with type, entities := hs }.checkUnique pool

/-! ## Clashes -/

/-- An entity may not come after the given ones: it has the id of one of them or, where its id is
free, the slug of one. -/
inductive Clashes (pool : Pool) (type : String) (before : List Handle) (h : Handle) :
    StoreError → Prop
  | id {id : EntityId} (held : pool.id h = some id) (taken : id ∈ (pool.roster before).ids) :
      Clashes pool type before h (.duplicateId type id)
  | slug {slug : String} (free : ∀ id ∈ pool.id h, id ∉ (pool.roster before).ids)
      (held : pool.slug h = some slug) (taken : slug ∈ (pool.roster before).slugs) :
      Clashes pool type before h (.duplicateSlug type slug)

/-- The keys that have been seen are those of the entities that have been dealt with. -/
structure Seen (pool : Pool) (done : List Handle) (ids : List EntityId) (slugs : List String) :
    Prop where
  ids : ∀ id, id ∈ ids ↔ id ∈ (pool.roster done).ids
  slugs : ∀ slug, slug ∈ slugs ↔ slug ∈ (pool.roster done).slugs

variable {pool : Pool} {type : String} {done hs : List Handle} {h : Handle} {ids : List EntityId}
  {slugs : List String} {e : StoreError} {c : Cache}

theorem seen_nil : Seen pool [] [] [] := ⟨fun _ => Iff.rfl, fun _ => Iff.rfl⟩

theorem Seen.append (hseen : Seen pool done ids slugs) (h : Handle) :
    Seen pool (done ++ [h]) ((pool.id h).toList ++ ids) ((pool.slug h).toList ++ slugs) := by
  have hperm : (pool.roster (done ++ [h])).Perm (pool.entity h :: pool.roster done) :=
    (List.perm_append_singleton h done).map pool.entity
  constructor
  · intro id
    have hids := (hperm.filterMap Entity.id).mem_iff (a := id)
    rw [show List.filterMap Entity.id _ = _ from Roster.ids_cons _ _, List.mem_append] at hids
    rw [List.mem_append, hseen.ids]
    exact hids.symm
  · intro slug
    have hslugs := (hperm.filterMap Entity.slug).mem_iff (a := slug)
    rw [show List.filterMap Entity.slug _ = _ from Roster.slugs_cons _ _, List.mem_append] at hslugs
    rw [List.mem_append, hseen.slugs]
    exact hslugs.symm

/-- A taken key is one that clashes. -/
theorem Seen.clashes (hseen : Seen pool done ids slugs)
    (htaken : takenKey? pool type h ids.contains slugs.contains = some e) :
    Clashes pool type done h e := by
  unfold takenKey? at htaken
  cases hid : (pool.id h).filter ids.contains with
  | some id =>
    rw [hid] at htaken
    obtain rfl := Option.some.inj htaken
    obtain ⟨hheld, hmem⟩ := Option.filter_eq_some_iff.mp hid
    exact .id hheld ((hseen.ids id).mp (by simpa using hmem))
  | none =>
    cases hslug : (pool.slug h).filter slugs.contains with
    | some slug =>
      rw [hid, hslug] at htaken
      obtain rfl := Option.some.inj htaken
      obtain ⟨hheld, hmem⟩ := Option.filter_eq_some_iff.mp hslug
      have hfree : ∀ id ∈ pool.id h, id ∉ (pool.roster done).ids := fun id hmem hids =>
        Option.filter_eq_none_iff.mp hid id hmem (by simpa using (hseen.ids id).mpr hids)
      exact .slug hfree hheld ((hseen.slugs slug).mp (by simpa using hmem))
    | none =>
      rw [hid, hslug] at htaken
      cases htaken

/-- Where a key is held twice, it is the first clash that is found: what comes before it repeats no
key, and the entity that clashes makes the difference. -/
theorem Seen.of_repeatedKey? (hseen : Seen pool done ids slugs)
    (hrepeated : repeatedKey? pool type ids slugs hs = some e) :
    ∃ before h after, hs = before ++ h :: after ∧ Clashes pool type (done ++ before) h e ∧
      repeatedKey? pool type ids slugs before = none ∧
      repeatedKey? pool type ids slugs (before ++ [h]) = some e := by
  induction hs generalizing done ids slugs with
  | nil => cases hrepeated
  | cons g rest ih =>
    rw [repeatedKey?_cons] at hrepeated
    cases htaken : takenKey? pool type g ids.contains slugs.contains with
    | some e' =>
      rw [htaken, Option.some_or] at hrepeated
      obtain rfl := Option.some.inj hrepeated
      refine ⟨[], g, rest, rfl, ?_, rfl, ?_⟩
      · rw [List.append_nil]
        exact hseen.clashes htaken
      · rw [List.nil_append, repeatedKey?_cons, htaken, Option.some_or]
    | none =>
      rw [htaken, Option.none_or] at hrepeated
      obtain ⟨before, h, after, rfl, hclash, hnone, hsome⟩ := ih (hseen.append g) hrepeated
      refine ⟨g :: before, h, after, rfl, ?_, ?_, ?_⟩
      · rw [List.append_cons]
        exact hclash
      · rw [repeatedKey?_cons, htaken, hnone, Option.none_or]
      · rw [List.cons_append, repeatedKey?_cons, htaken, hsome, Option.none_or]

/-! ## Adding one by one -/

/-- What the rebuilt indexes refuse is what has been seen. -/
theorem Seen.conflict?_refresh (hseen : Seen pool c.entities ids slugs) (hc : c.Orderly pool)
    (h : Handle) : (c.refresh pool).conflict? pool h
      = takenKey? pool c.type h ids.contains slugs.contains := by
  obtain ⟨hbyId, hbySlug⟩ := hc.covers_refresh
  have hids : (fun id => ((c.refresh pool).byId.get? id).isSome) = ids.contains := by
    funext id
    rw [Bool.eq_iff_iff, hbyId.isSome_iff, List.contains_iff_mem, hseen.ids, Pool.mem_ids_roster]
  have hslugs : (fun slug => ((c.refresh pool).bySlug.get? slug).isSome) = slugs.contains := by
    funext slug
    rw [Bool.eq_iff_iff, hbySlug.isSome_iff, List.contains_iff_mem, hseen.slugs,
      Pool.mem_slugs_roster]
  rw [conflict?_eq, hids, hslugs, type_refresh]

/-- **Adding entities one by one** goes as far as no key is repeated, and fails with the one that is.
By induction on what is left to add: the cache stays orderly, and its list is what has been seen. -/
theorem Seen.addAll (hseen : Seen pool c.entities ids slugs) (hc : c.Orderly pool)
    (hnodup : (c.entities ++ hs).Nodup) :
    match c.addAll pool hs with
    | (.error e, _) => repeatedKey? pool c.type ids slugs hs = some e
    | (.ok (), c') => repeatedKey? pool c.type ids slugs hs = none ∧ c'.Orderly pool ∧
        c'.entities = c.entities ++ hs := by
  induction hs generalizing c ids slugs with
  | nil => exact ⟨rfl, hc, (List.append_nil _).symm⟩
  | cons h rest ih =>
    have hnew : h ∉ c.entities := fun hmem =>
      (List.nodup_append.mp hnodup).2.2 h hmem h List.mem_cons_self rfl
    rw [Cache.addAll, repeatedKey?_cons, ← hseen.conflict?_refresh hc h]
    rcases add_cases pool h c with ⟨hmem, -⟩ | ⟨-, e, hconflict, hadd⟩ | ⟨-, hfree, hadd⟩
    · exact absurd hmem hnew
    · rw [hadd, hconflict]
      exact Option.some_or
    · rw [hadd, hfree, Option.none_or]
      have hlist : ((c.refresh pool).append pool h).entities = c.entities ++ [h] := by
        rw [entities_append, entities_refresh]
      have htype : ((c.refresh pool).append pool h).type = c.type := type_refresh pool c
      have hrest := ih (hlist ▸ hseen.append h) (hc.append hnew hfree)
        (by rwa [hlist, List.append_assoc])
      rw [htype, hlist, List.append_assoc] at hrest
      exact hrest

/-! ## All three -/

/-- What every route says of a list is which of its keys is repeated first. -/
theorem Route.outcome_eq (hnodup : hs.Nodup) (r : Route) :
    r.outcome pool type hs = (repeatedKey? pool type [] [] hs).elim (.ok ()) .error := by
  cases r with
  | building =>
    have hspec := ofEntities_spec pool type hs
    unfold outcome
    cases hbuilt : ofEntities pool type hs with
    | error e =>
      rw [hbuilt] at hspec
      rw [show repeatedKey? pool type [] [] hs = some e from hspec]
      rfl
    | ok c =>
      rw [hbuilt] at hspec
      rw [hspec.1]
      rfl
  | adding =>
    have hspec := Seen.addAll (c := empty type) seen_nil (.empty pool type) hnodup
    unfold outcome
    rcases hadded : (empty type).addAll pool hs with ⟨e | _, c⟩
    · rw [hadded] at hspec
      rw [show repeatedKey? pool type [] [] hs = some e from hspec]
      rfl
    · rw [hadded] at hspec
      rw [show repeatedKey? pool type [] [] hs = none from hspec.1]
      rfl
  | checking c =>
    unfold outcome checkUnique
    dsimp only
    cases repeatedKey? pool type [] [] hs <;> rfl

/-- Orderly caches of one list are looked up in alike. -/
theorem Orderly.lookups_eq {d : Cache} (hc : c.Orderly pool) (hd : d.Orderly pool)
    (hlist : c.entities = d.entities) :
    (∀ id, (c.getById pool id).1 = (d.getById pool id).1) ∧
      ∀ slug, (c.getBySlug pool slug).1 = (d.getBySlug pool slug).1 := by
  constructor
  · intro id
    refine Option.ext fun h => ?_
    rw [(hc.lookups h).1 id, (hd.lookups h).1 id, hlist]
  · intro slug
    refine Option.ext fun h => ?_
    rw [(hc.lookups h).2 slug, (hd.lookups h).2 slug, hlist]

/-- **The three ways agree.** Either each of them admits the list, and the cache that was built and
the one that was added to list it as it is and are looked up in alike; or there is a first entity
that clashes with those before it, each of the three admits what comes before it, and each refuses
that entity, and with it the list, with the error of the clash. -/
theorem routes_agree (pool : Pool) (type : String) (hnodup : hs.Nodup) :
    ((∀ r : Route, r.outcome pool type hs = .ok ()) ∧
      ∃ built added, ofEntities pool type hs = .ok built ∧
        (empty type).addAll pool hs = (.ok (), added) ∧
        built.entities = hs ∧ added.entities = hs ∧
        (∀ id, (built.getById pool id).1 = (added.getById pool id).1) ∧
        ∀ slug, (built.getBySlug pool slug).1 = (added.getBySlug pool slug).1) ∨
    ∃ before h after e, hs = before ++ h :: after ∧ Clashes pool type before h e ∧
      ∀ r : Route, r.outcome pool type before = .ok () ∧
        r.outcome pool type (before ++ [h]) = .error e ∧ r.outcome pool type hs = .error e := by
  cases hrepeated : repeatedKey? pool type [] [] hs with
  | some e =>
    obtain ⟨before, h, after, hsplit, hclash, hnone, hsome⟩ := seen_nil.of_repeatedKey? hrepeated
    have hprefix : (before ++ [h]).Nodup := by
      rw [hsplit, List.append_cons] at hnodup
      exact hnodup.of_append_left
    refine .inr ⟨before, h, after, e, hsplit, hclash, fun r => ⟨?_, ?_, ?_⟩⟩
    · rw [r.outcome_eq hprefix.of_append_left, hnone]
      rfl
    · rw [r.outcome_eq hprefix, hsome]
      rfl
    · rw [r.outcome_eq hnodup, hrepeated]
      rfl
  | none =>
    have hall : ∀ r : Route, r.outcome pool type hs = .ok () := fun r => by
      rw [r.outcome_eq hnodup, hrepeated]
      rfl
    refine .inl ⟨hall, ?_⟩
    have hbuilding := ofEntities_spec pool type hs
    have hadding := Seen.addAll (c := empty type) seen_nil (.empty pool type) hnodup
    cases hbuilt : ofEntities pool type hs with
    | error e =>
      rw [hbuilt, hrepeated] at hbuilding
      cases hbuilding
    | ok built =>
      rcases hadded : (empty type).addAll pool hs with ⟨e | _, added⟩
      · have hrefused := hall .adding
        rw [Route.outcome, hadded] at hrefused
        cases hrefused
      · rw [hbuilt] at hbuilding
        rw [hadded] at hadding
        obtain ⟨-, -, hlist, -⟩ := hbuilding
        obtain ⟨-, horderly, hlist'⟩ := hadding
        have halike := (Orderly.ofEntities hnodup hbuilt).lookups_eq horderly (hlist.trans hlist'.symm)
        exact ⟨built, added, rfl, rfl, hlist, hlist', halike⟩

open Samples

/-- A blue and a navy tag without an id, a red one of the id 1, a second red one, and a green one of
the id 1. -/
def mixedTags : Pool :=
  (Pool.empty.allocAll [tagNamed none "blue", tagNamed none "navy", tagNamed (some 1) "red",
    tagNamed none "red", tagNamed (some 1) "green"]).2

/-- The first three are admitted every way. All five are refused every way, and for the slug of the
fourth, although the id of the fifth is taken, too. -/
theorem routes_agree_mixedTags :
    [0, 1, 2].Nodup ∧ [0, 1, 2, 3, 4].Nodup ∧
      (∀ r : Route, r.outcome mixedTags "tag" [0, 1, 2] = .ok ()) ∧
      ∀ r : Route, r.outcome mixedTags "tag" [0, 1, 2, 3, 4] = .error (.duplicateSlug "tag" "red") := by
  have hthree : [0, 1, 2].Nodup := by decide
  have hfive : [0, 1, 2, 3, 4].Nodup := by decide
  have hbuilt : Route.building.outcome mixedTags "tag" [0, 1, 2] = .ok () := by decide +kernel
  have hrefused : Route.building.outcome mixedTags "tag" [0, 1, 2, 3, 4]
      = .error (.duplicateSlug "tag" "red") := by
    decide +kernel
  refine ⟨hthree, hfive, ?_, ?_⟩
  · obtain ⟨hall, -⟩ | ⟨_, _, _, _, -, -, hall⟩ := routes_agree mixedTags "tag" hthree
    · exact hall
    · rw [(hall .building).2.2] at hbuilt
      cases hbuilt
  · obtain ⟨hall, -⟩ | ⟨_, _, _, e, -, -, hall⟩ := routes_agree mixedTags "tag" hfive
    · rw [hall .building] at hrefused
      cases hrefused
    · obtain rfl : e = .duplicateSlug "tag" "red" :=
        Except.error.inj ((hall .building).2.2.symm.trans hrefused)
      exact fun r => (hall r).2.2

end Cache

end EntityStore
