import EntityStore.Proofs.Session.Isolation

/-!
# What a step that goes through leaves as it is

On the way to adding an entity a session checks types out, draws ids and looks them up. Whatever
state the session is in, as long as such a step goes through it leaves alone what lived before,
but for an id; what was listed stays listed, and what was tracked stays tracked as it was.
-/

namespace EntityStore

variable {h : Handle} {type : String}

/-! ## Entities that keep their fields -/

/-- What lives in `p` has its type and all its fields in `q`, but perhaps another id. -/
structure Pool.KeepsFields (p q : Pool) : Prop where
  next_le : p.next ≤ q.next
  typeName : ∀ h < p.next, q.typeName h = p.typeName h
  stored? : ∀ h < p.next, ∀ name ≠ idField, (q.entity h).stored? name = (p.entity h).stored? name

namespace Pool.KeepsFields

variable {p q r : Pool}

theorem refl (p : Pool) : p.KeepsFields p := ⟨Nat.le_refl _, fun _ _ => rfl, fun _ _ _ _ => rfl⟩

theorem trans (hpq : p.KeepsFields q) (hqr : q.KeepsFields r) : p.KeepsFields r where
  next_le := Nat.le_trans hpq.next_le hqr.next_le
  typeName := fun h hh =>
    (hqr.typeName h (Nat.lt_of_lt_of_le hh hpq.next_le)).trans (hpq.typeName h hh)
  stored? := fun h hh name hname =>
    (hqr.stored? h (Nat.lt_of_lt_of_le hh hpq.next_le) name hname).trans (hpq.stored? h hh name hname)

theorem of_extends (hpq : p.Extends q) : p.KeepsFields q where
  next_le := hpq.next_le
  typeName := fun h hh => hpq.typeName hh
  stored? := fun h hh name _ => by rw [hpq.kept h hh]

/-- An id is no field like the others. -/
theorem setId (p : Pool) (h : Handle) (id : Option EntityId) :
    p.KeepsFields (p.edit h fun e => e.setId id) := by
  have hsame : ∀ k, (p.edit h fun e => e.setId id).entity k = p.entity k ∨
      (p.edit h fun e => e.setId id).entity k = (p.entity k).setId id := by
    intro k
    by_cases hk : k = h
    · exact .inr (by rw [hk, Pool.entity_edit_self])
    · exact .inl (Pool.entity_edit_of_ne hk)
  refine ⟨Nat.le_refl _, fun k _ => ?_, fun k _ name hname => ?_⟩
  · rw [Pool.typeName, Pool.typeName]
    rcases hsame k with heq | heq
    · rw [heq]
    · rw [heq]
      rfl
  · rcases hsame k with heq | heq
    · rw [heq]
    · rw [heq, Entity.stored?, Entity.stored?, if_neg hname, if_neg hname]
      rfl

end Pool.KeepsFields

/-- What lives keeps its fields, and the settings stay. -/
structure Store.KeepsFields (s s' : Store) : Prop where
  pool : s.pool.KeepsFields s'.pool
  settings : s'.repository.settings = s.repository.settings

namespace Store

variable {s s' s'' : Store}

theorem KeepsFields.refl (s : Store) : s.KeepsFields s := ⟨.refl _, rfl⟩

theorem KeepsFields.trans (h : s.KeepsFields s') (h' : s'.KeepsFields s'') : s.KeepsFields s'' :=
  ⟨h.pool.trans h'.pool, h'.settings.trans h.settings⟩

theorem keepsFields_checkout (s : Store) (type : String) : s.KeepsFields (exec (checkout type) s).2 := by
  cases hfind : s.repository.caches.find? type with
  | some c =>
    rw [exec_checkout_of_some hfind]
    exact .refl s
  | none =>
    rw [exec_checkout_of_none hfind]
    cases s.loaded type with
    | error e => exact .refl s
    | ok es =>
      have hextends := Pool.KeepsFields.of_extends (extends_fill s.pool type es)
      simp only
      rcases hrun : fill s.pool type es with ⟨e | ⟨c, last⟩, pool⟩
      · rw [hrun] at hextends
        exact ⟨hextends, rfl⟩
      · rw [hrun] at hextends
        exact ⟨hextends, rfl⟩

theorem keepsFields_load (s : Store) (type : String) : s.KeepsFields (exec (load type) s).2 := by
  rw [exec_load]
  exact keepsFields_checkout s type

theorem keepsFields_newId (s : Store) (type : String) : s.KeepsFields (exec (newId type) s).2 := by
  have hcheckout := keepsFields_checkout s type
  rw [exec_newId]
  rcases hrun : exec (checkout type) s with ⟨e | c, s'⟩
  · rw [hrun] at hcheckout
    exact hcheckout
  · rw [hrun] at hcheckout
    simp only
    cases (advance type ((s'.pool.roster c.entities).latest (s'.repository.lastId type))).1 with
    | error e => exact hcheckout
    | ok id => exact hcheckout.trans ⟨.refl _, rfl⟩

end Store

/-! ## Copies lie beyond what lives -/

namespace Ledger

theorem extends_registerAllClean (p : Pool) (l : Ledger) (hs : List Handle) :
    p.Extends (l.registerAllClean p hs).2.1 := by
  induction hs generalizing p l with
  | nil => exact .refl p
  | cons h rest ih => exact (Pool.extends_alloc p (p.entity h)).trans (ih _ _)

/-- Who lives is tracked as before. -/
theorem find?_registerAllClean {p : Pool} (hlive : h < p.next) (l : Ledger) (hs : List Handle) :
    (l.registerAllClean p hs).2.2.find? h = l.find? h := by
  induction hs generalizing p l with
  | nil => rfl
  | cons k rest ih =>
    have hnext : (p.detach k).2.next = p.next + 1 := Pool.next_alloc p (p.entity k)
    refine (ih (p := (p.detach k).2) (hnext ▸ Nat.lt_succ_of_lt hlive) _).trans ?_
    rw [find?, List.find?_append, List.find?_singleton, if_neg, Option.or_none]
    · rfl
    · exact fun heq => Nat.ne_of_gt hlive (beq_iff_eq.mp heq)

end Ledger

namespace Session

variable {w w' w'' : Work} {α β : Type}

/-! ## Steps that sustain -/

/-- What lived keeps its fields; what was listed is listed, and who lived is tracked as before. -/
structure Sustains (type : String) (h : Handle) (w w' : Work) : Prop where
  store : w.store.KeepsFields w'.store
  listed : h ∈ w.session.listed type → h ∈ w'.session.listed type
  tracked : h < w.store.pool.next → w'.session.ledger.find? h = w.session.ledger.find? h

theorem Sustains.refl (w : Work) : Sustains type h w w := ⟨.refl _, id, fun _ => rfl⟩

theorem Sustains.trans (hw : Sustains type h w w') (hw' : Sustains type h w' w'') :
    Sustains type h w w'' where
  store := hw.store.trans hw'.store
  listed := hw'.listed ∘ hw.listed
  tracked := fun hlive =>
    (hw'.tracked (Nat.lt_of_lt_of_le hlive hw.store.pool.next_le)).trans (hw.tracked hlive)

/-- A step that sustains, if it goes through. -/
def Sustaining (type : String) (h : Handle) (m : SessionM α) : Prop :=
  ∀ w w' a, exec m w = (.ok a, w') → Sustains type h w w'

theorem sustaining_of_same {m : SessionM α} (hm : ∀ w, (exec m w).2 = w) : Sustaining type h m := by
  intro w w' a hrun
  obtain rfl : w = w' := (hm w).symm.trans (congrArg Prod.snd hrun)
  exact .refl w

theorem sustaining_pure (a : α) : Sustaining type h (pure a : SessionM α) :=
  sustaining_of_same fun _ => rfl

theorem sustaining_throw (e : SessionFault) : Sustaining type h (throw e : SessionM α) :=
  sustaining_of_same fun _ => rfl

theorem Sustaining.bind {m : SessionM α} {f : α → SessionM β} (hm : Sustaining type h m)
    (hf : ∀ a, Sustaining type h (f a)) : Sustaining type h (m >>= f) := by
  intro w w' b hrun
  rw [exec_bind] at hrun
  rcases hfirst : exec m w with ⟨e | a, w₁⟩
  · rw [hfirst] at hrun
    cases hrun
  · rw [hfirst] at hrun
    exact (hm _ _ _ hfirst).trans (hf a _ _ _ hrun)

theorem sustaining_ask {m : StoreM α} (hm : ∀ s : Store, s.KeepsFields (exec m s).2) :
    Sustaining type h (ask m) := by
  intro w w' a hrun
  rw [exec_ask] at hrun
  obtain ⟨-, rfl⟩ := Prod.mk.inj hrun
  exact ⟨hm w.store, id, fun _ => rfl⟩

/-- A cache that comes to be put into its place, or takes the place of one that listed no more. -/
theorem listed_put {cs : Caches} {c : Cache} {ledger ledger' : Ledger} {poisoned poisoned' : Bool}
    (hkept : ∀ d, cs.find? c.type = some d → h ∈ d.entities → h ∈ c.entities)
    (hlisted : h ∈ Session.listed ⟨ledger, cs, poisoned⟩ type) :
    h ∈ Session.listed ⟨ledger', cs.put c, poisoned'⟩ type := by
  unfold Session.listed at hlisted ⊢
  rw [Caches.find?_put]
  split
  next htype =>
    rw [← htype] at hlisted
    cases hfind : cs.find? c.type with
    | none =>
      rw [hfind] at hlisted
      exact absurd hlisted List.not_mem_nil
    | some d =>
      rw [hfind] at hlisted
      exact hkept d hfind hlisted
  next => exact hlisted

theorem sustaining_checkout (type' : String) : Sustaining type h (checkout type') := by
  intro w w' c hrun
  rcases of_exec_checkout hrun with
    ⟨-, rfl⟩ | ⟨hnone, committed, s, copies, pool, ledger, hload, hregister, hof, rfl⟩
  · exact .refl _
  · have hkeeps := Store.keepsFields_load w.store type'
    rw [hload] at hkeeps
    have hextends := Ledger.extends_registerAllClean s.pool w.session.ledger committed
    have hspec := Cache.ofEntities_spec pool type' copies
    rw [hregister] at hextends
    rw [hof] at hspec
    obtain ⟨-, -, -, htype⟩ := hspec
    refine ⟨hkeeps.trans ⟨.of_extends hextends, rfl⟩, ?_, fun hlive => ?_⟩
    · refine listed_put fun d hd => ?_
      rw [htype, hnone] at hd
      cases hd
    · have hfound := Ledger.find?_registerAllClean
        (Nat.lt_of_lt_of_le hlive hkeeps.pool.next_le) w.session.ledger committed
      rw [hregister] at hfound
      exact hfound

/-- An operation on a cache that loses nothing, if it goes through. -/
theorem sustaining_onCache (type' : String) {f : Pool → Cache → Except StoreError α × Cache}
    (hf : ∀ p c a, (f p c).1 = .ok a →
      (f p c).2.type = c.type ∧ ∀ k ∈ c.entities, k ∈ (f p c).2.entities) :
    Sustaining type h (onCache type' f) := by
  intro w w' a hrun
  rw [exec_onCache] at hrun
  rcases hcheckout : exec (checkout type') w with ⟨e | c, w₁⟩
  · rw [hcheckout] at hrun
    cases hrun
  · rw [hcheckout] at hrun
    obtain ⟨hok, rfl⟩ := Prod.mk.inj hrun
    have hfind := find?_of_exec_checkout hcheckout
    obtain ⟨b, hb⟩ : ∃ b, (f w₁.store.pool c).1 = .ok b := by
      cases hresult : (f w₁.store.pool c).1 with
      | error e =>
        rw [hresult] at hok
        cases hok
      | ok b => exact ⟨b, rfl⟩
    obtain ⟨htype, hkept⟩ := hf w₁.store.pool c b hb
    refine (sustaining_checkout type' _ _ _ hcheckout).trans ⟨.refl _, ?_, fun _ => rfl⟩
    refine listed_put fun d hd hmem => ?_
    rw [htype, Caches.type_of_find? hfind, hfind] at hd
    obtain rfl := Option.some.inj hd
    exact hkept h hmem

theorem sustaining_unusedId (type' : String) (draws : Nat) :
    Sustaining type h (unusedId type' draws) := by
  induction draws with
  | zero => exact sustaining_throw _
  | succ draws ih =>
    refine (sustaining_ask fun s => Store.keepsFields_newId s type').bind fun id => ?_
    refine (sustaining_onCache type' fun p c _ _ => ?_).bind fun found => ?_
    · refine ⟨Cache.type_refresh p c, fun k hk => ?_⟩
      show k ∈ (c.refresh p).entities
      rwa [Cache.entities_refresh]
    · cases found with
      | none => exact sustaining_pure id
      | some k => exact ih

/-- Drawing an id for an entity. Who is taken out again when there is none has not gone through. -/
theorem sustaining_identify (type' : String) (k : Handle) : Sustaining type h (identify type' k) := by
  refine (sustaining_checkout type').bind fun c =>
    Sustaining.bind ?_ fun id => Sustaining.bind ?_ fun _ => ?_
  · intro w w' id hrun
    rw [exec_tryCatch] at hrun
    rcases hdraw : exec (unusedId type' (c.size + 1)) w with ⟨e | id', w₁⟩
    · rw [hdraw] at hrun
      simp only [exec_bind] at hrun
      rcases hwithdraw : exec (withdraw type' k) w₁ with ⟨e' | gone, w₂⟩ <;>
        (rw [hwithdraw] at hrun; cases hrun)
    · rw [hdraw] at hrun
      obtain ⟨-, rfl⟩ := Prod.mk.inj hrun
      exact sustaining_unusedId type' _ _ _ _ hdraw
  · intro w w' a hrun
    obtain ⟨-, rfl⟩ := Prod.mk.inj hrun
    exact ⟨⟨.setId w.store.pool k (some id), rfl⟩, fun hlisted => hlisted, fun _ => rfl⟩
  · exact sustaining_onCache type' fun _ _ _ _ => ⟨rfl, fun _ hk => hk⟩

end Session

end EntityStore
