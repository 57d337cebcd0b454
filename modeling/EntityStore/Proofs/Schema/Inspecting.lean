import EntityStore.Proofs.Schema.Walk
import EntityStore.Samples.Types

/-!
# Which paths are found

Inspecting a path goes through its segments and refuses as soon as one of them cannot be followed.
What it succeeds on is said here without the walk: the type reached by the segments in front of one
is got by following relations, and the path is found if each of its segments names an attribute
there and only the last one may lead nowhere. As a path is cut at its dots, two paths that are
joined by one are found one after the other.
-/

namespace EntityStore

/-- The attribute that a segment names on a type. An empty segment is no name. -/
def EntityType.named? (t : EntityType) (segment : String) : Option Attribute :=
  if segment = "" then none else t.attribute? segment

/-- The registered type that a relation leads to. -/
def Schema.target? (schema : Schema) (a : Attribute) : Option EntityType :=
  a.target?.bind schema.find?

/-- The type that is reached from another by following a relation for each of the segments. -/
def Schema.reached? (schema : Schema) (t : EntityType) (segments : List String) :
    Option EntityType :=
  segments.foldlM (fun u segment => (u.named? segment).bind schema.target?) t

/-- Every segment names an attribute of the type reached so far, and every segment but the last
names a relation with a registered target. -/
def Schema.Follows (schema : Schema) (t : EntityType) (segments : List String) : Prop :=
  ∀ front segment back, segments = front ++ segment :: back →
    ∃ u a, schema.reached? t front = some u ∧ u.named? segment = some a ∧
      (back ≠ [] → a.isRelation = true ∧ ∃ v, schema.target? a = some v)

variable {schema : Schema} {t u : EntityType} {a : Attribute}

theorem EntityType.named?_eq_some_iff {segment : String} :
    t.named? segment = some a ↔
      segment ≠ "" ∧ a.name = segment ∧ t.attribute? a.name = some a := by
  unfold named?
  split
  · next hempty => simp [hempty]
  · next hempty =>
    constructor
    · intro ha
      have hname := attribute?_name ha
      exact ⟨hempty, hname, hname ▸ ha⟩
    · intro ⟨_, hname, ha⟩
      exact hname ▸ ha

theorem Schema.target?_eq_some_iff : schema.target? a = some u ↔ schema.targetOf a = .ok u := by
  unfold target? targetOf lookup
  cases a.target? with
  | none => simp
  | some name =>
    dsimp only [Option.bind_some]
    cases schema.find? name <;> simp

/-- Only relations have a target. -/
theorem Schema.isTerminal_of_target? (h : schema.target? a = some u) : a.isTerminal = false := by
  unfold target? Attribute.target? at h
  unfold Attribute.isTerminal
  cases hkind : a.kind with
  | terminal kind =>
    rw [hkind] at h
    cases h
  | toOne target => rfl
  | toMany target remote => rfl

/-! ## What a walk succeeds on -/

namespace IsPath

theorem cons_iff {step : Step} {rest : List Step} (hne : rest ≠ []) :
    IsPath schema t (step :: rest) ↔
      step.owner = t ∧ t.attribute? step.attr.name = some step.attr ∧
        ∃ u, schema.target? step.attr = some u ∧ IsPath schema u rest := by
  constructor
  · intro h
    cases h with
    | last => exact absurd rfl hne
    | hop ha hrel hu hrest => exact ⟨rfl, ha, _, Schema.target?_eq_some_iff.mpr hu, hrest⟩
  · -- what has a target is a relation, so the step may be hopped over
    intro ⟨howner, ha, u, hu, hrest⟩
    obtain ⟨a, owner⟩ := step
    obtain rfl := howner
    exact .hop ha (Schema.isTerminal_of_target? hu) (Schema.target?_eq_some_iff.mp hu) hrest

/-- A path goes on where its first part ends. By induction on that part. -/
theorem append_iff {front back : List Step} (hfront : front ≠ []) (hback : back ≠ []) :
    IsPath schema t (front ++ back) ↔
      IsPath schema t front ∧ ∃ last u, front.getLast? = some last ∧
        schema.target? last.attr = some u ∧ IsPath schema u back := by
  induction front generalizing t with
  | nil => exact absurd rfl hfront
  | cons step rest ih =>
    rw [List.cons_append, cons_iff (List.append_ne_nil_of_right_ne_nil _ hback)]
    cases rest with
    | nil =>
      -- the first part is one step, and the second part starts where that leads
      constructor
      · intro ⟨howner, ha, u, hu, htail⟩
        obtain ⟨a, owner⟩ := step
        obtain rfl := howner
        exact ⟨.last ha, _, u, rfl, hu, htail⟩
      · intro ⟨hpath, step', u, hend, hu, htail⟩
        obtain rfl := Option.some.inj hend
        cases hpath with
        | last ha => exact ⟨rfl, ha, u, hu, htail⟩
        | hop _ _ _ hnil => exact absurd rfl hnil.ne_nil
    | cons next rest =>
      rw [cons_iff (List.cons_ne_nil next rest), List.getLast?_cons_cons]
      constructor
      · intro ⟨howner, ha, u, hu, htail⟩
        obtain ⟨hrest, hjoint⟩ := (ih (List.cons_ne_nil next rest)).mp htail
        exact ⟨⟨howner, ha, u, hu, hrest⟩, hjoint⟩
      · intro ⟨⟨howner, ha, u, hu, hrest⟩, hjoint⟩
        exact ⟨howner, ha, u, hu, (ih (List.cons_ne_nil next rest)).mpr ⟨hrest, hjoint⟩⟩

end IsPath

theorem Schema.reached?_cons {segment : String} {rest : List String}
    (ha : t.named? segment = some a) (hu : schema.target? a = some u) :
    schema.reached? t (segment :: rest) = schema.reached? u rest := by
  rw [reached?, List.foldlM_cons, ha, Option.bind_some, hu]
  rfl

/-- Segments are followed one by one. -/
theorem Schema.follows_cons_iff {segment : String} {rest : List String} :
    schema.Follows t (segment :: rest) ↔
      ∃ a, t.named? segment = some a ∧
        (rest = [] ∨ ∃ u, schema.target? a = some u ∧ schema.Follows u rest) := by
  constructor
  · intro h
    obtain ⟨_, a, hreached, ha, hjoint⟩ := h [] segment rest rfl
    obtain rfl := Option.some.inj hreached
    refine ⟨a, ha, ?_⟩
    by_cases hrest : rest = []
    · exact .inl hrest
    · obtain ⟨-, u, hu⟩ := hjoint hrest
      refine .inr ⟨u, hu, ?_⟩
      intro front segment' back hsplit
      obtain ⟨v, b, hv, hb⟩ := h (segment :: front) segment' back (by rw [hsplit]; rfl)
      rw [reached?_cons ha hu] at hv
      exact ⟨v, b, hv, hb⟩
  · intro ⟨a, ha, hjoint⟩ front segment' back hsplit
    cases front with
    | nil =>
      obtain ⟨rfl, rfl⟩ := List.cons.inj hsplit
      refine ⟨t, a, rfl, ha, fun hback => ?_⟩
      obtain hnil | ⟨u, hu, -⟩ := hjoint
      · exact absurd hnil hback
      · refine ⟨?_, u, hu⟩
        rw [Attribute.isRelation, isTerminal_of_target? hu]
        rfl
    | cons first front =>
      obtain ⟨rfl, htail⟩ := List.cons.inj hsplit
      obtain hnil | ⟨u, hu, hfollows⟩ := hjoint
      · rw [hnil] at htail
        exact absurd htail.symm (List.append_ne_nil_of_right_ne_nil _ (List.cons_ne_nil _ _))
      · obtain ⟨v, b, hv, hb⟩ := hfollows front segment' back htail
        refine ⟨v, b, ?_, hb⟩
        rw [reached?_cons ha hu]
        exact hv

/-- Segments that can be followed are the names of a path. By induction on the segments. -/
theorem Schema.follows_iff {segments : List String} (hne : segments ≠ []) :
    schema.Follows t segments ↔
      ∃ steps, IsPath schema t steps ∧ steps.map (fun s => s.attr.name) = segments ∧
        "" ∉ segments := by
  induction segments generalizing t with
  | nil => exact absurd rfl hne
  | cons segment rest ih =>
    rw [follows_cons_iff]
    constructor
    · intro ⟨a, ha, hjoint⟩
      obtain ⟨hempty, hname, hattr⟩ := EntityType.named?_eq_some_iff.mp ha
      by_cases hrest : rest = []
      · subst hrest
        exact ⟨[⟨a, t⟩], .last hattr, by rw [← hname]; rfl, by simpa using hempty.symm⟩
      · obtain ⟨u, hu, hfollows⟩ := hjoint.resolve_left hrest
        obtain ⟨steps, hpath, hnames, hnot⟩ := (ih hrest).mp hfollows
        refine ⟨⟨a, t⟩ :: steps, (IsPath.cons_iff hpath.ne_nil).mpr ⟨rfl, hattr, u, hu, hpath⟩, ?_, ?_⟩
        · rw [List.map_cons, hnames, ← hname]
        · rw [List.mem_cons, not_or]
          exact ⟨hempty.symm, hnot⟩
    · intro ⟨steps, hpath, hnames, hnot⟩
      rw [List.mem_cons, not_or] at hnot
      obtain ⟨hempty, hnot⟩ := hnot
      cases hpath with
      | @last t a hattr =>
        obtain ⟨hname, hrest⟩ := List.cons.inj hnames
        refine ⟨a, EntityType.named?_eq_some_iff.mpr ⟨Ne.symm hempty, hname, hattr⟩, .inl hrest.symm⟩
      | @hop t u a steps hattr hrel hu htail =>
        obtain ⟨hname, hrest⟩ := List.cons.inj hnames
        refine ⟨a, EntityType.named?_eq_some_iff.mpr ⟨Ne.symm hempty, hname, hattr⟩, .inr ⟨u, ?_, ?_⟩⟩
        · exact target?_eq_some_iff.mpr hu
        · have hne : rest ≠ [] := by
            rw [← hrest]
            simpa using htail.ne_nil
          exact (ih hne).mpr ⟨steps, htail, hrest, hnot⟩

/-- A walk refuses empty segments. -/
theorem Path.empty_not_mem_of_walk {fault : PathFault → SchemaError} {segments : List String}
    {steps : List Step} (h : walk schema fault t segments = .ok steps) : "" ∉ segments := by
  induction segments generalizing t steps with
  | nil => exact List.not_mem_nil
  | cons segment rest ih =>
    rw [walk] at h
    split at h
    · cases h
    case isFalse hempty =>
      rw [List.mem_cons, not_or]
      refine ⟨Ne.symm hempty, ?_⟩
      split at h
      · cases h
      split at h
      case isTrue hrest =>
        rw [List.isEmpty_iff.mp hrest]
        exact List.not_mem_nil
      case isFalse =>
        split at h
        · cases h
        split at h
        · cases h
        split at h
        · cases h
        case h_2 tail htail => exact ih htail

/-- A path is walked along its names. -/
theorem IsPath.walk_names {steps : List Step} (h : IsPath schema t steps)
    (hnames : "" ∉ steps.map fun s => s.attr.name) (fault : PathFault → SchemaError) :
    Path.walk schema fault t (steps.map fun s => s.attr.name) = .ok steps := by
  induction h with
  | @last t a ha =>
    rw [List.map_cons, List.mem_cons, not_or] at hnames
    rw [List.map_cons, Path.walk, if_neg (Ne.symm hnames.1), ha]
    rfl
  | @hop t u a rest ha hrel hu htail ih =>
    rw [List.map_cons, List.mem_cons, not_or] at hnames
    have hmore : (rest.map fun s => s.attr.name).isEmpty = false := by
      simpa using htail.ne_nil
    rw [List.map_cons, Path.walk, if_neg (Ne.symm hnames.1), ha]
    simp [hmore, hrel, hu, ih hnames.2]

/-- **A walk succeeds on the names of a path**, and gives that path. -/
theorem Path.walk_eq_ok_iff {fault : PathFault → SchemaError} {segments : List String}
    {steps : List Step} (hne : segments ≠ []) :
    walk schema fault t segments = .ok steps ↔
      IsPath schema t steps ∧ steps.map (fun s => s.attr.name) = segments ∧ "" ∉ segments := by
  constructor
  · intro h
    exact ⟨.of_walk hne h, names_of_walk h, empty_not_mem_of_walk h⟩
  · intro ⟨hpath, hnames, hempty⟩
    subst hnames
    exact hpath.walk_names hempty fault

/-! ## Whole paths -/

namespace Path

theorem segments_append (p q : String) : segments (p ++ "." ++ q) = segments p ++ segments q := by
  have htext : (p ++ "." ++ q).toList = p.toList ++ '.' :: q.toList := by
    simp [String.toList_append]
  rw [segments, htext, Text.pieces_append, List.map_append]
  rfl

theorem join_segments (path : String) : join (segments path) = path := by
  have hpieces : (segments path).map String.toList = Text.pieces '.' path.toList := by
    rw [segments, List.map_map]
    exact (List.map_congr_left fun _ _ => String.toList_ofList).trans (List.map_id _)
  have hdot : ".".toList = ['.'] := rfl
  rw [join, ← String.toList_inj, String.toList_intercalate, hpieces, hdot, Text.intercalate_pieces]

end Path

theorem Schema.inspect_eq_ok_iff {root path : String} {steps : List Step}
    (hroot : schema.find? root = some t) :
    schema.inspect root path = .ok steps ↔
      IsPath schema t steps ∧ steps.map (fun s => s.attr.name) = Path.segments path ∧
        "" ∉ Path.segments path := by
  rw [inspect, lookup, hroot]
  exact Path.walk_eq_ok_iff (Path.segments_ne_nil path)

theorem IsPath.isChain {steps : List Step} (h : IsPath schema t steps) :
    steps.IsChain (fun s next => schema.target? s.attr = some next.owner) ∧
      steps.head?.map (·.owner) = some t := by
  induction h with
  | last ha => exact ⟨.singleton _, rfl⟩
  | @hop t u a rest ha hrel hu htail ih =>
    obtain ⟨hchain, hhead⟩ := ih
    obtain ⟨next, rest, rfl⟩ := List.exists_cons_of_ne_nil htail.ne_nil
    refine ⟨.cons_cons ?_ hchain, rfl⟩
    have howner : next.owner = u := Option.some.inj hhead
    rw [howner]
    exact Schema.target?_eq_some_iff.mpr hu

/-- Every step of a path reads an attribute that the type it starts from declares. -/
theorem IsPath.declared {steps : List Step} (h : IsPath schema t steps) :
    ∀ s ∈ steps, s.owner.attribute? s.attr.name = some s.attr := by
  induction h with
  | last ha =>
    intro s hs
    rw [List.mem_singleton.mp hs]
    exact ha
  | hop ha _ _ _ ih =>
    intro s hs
    obtain rfl | hs := List.mem_cons.mp hs
    · exact ha
    · exact ih s hs

theorem Schema.follows_iff_inspect {root path : String} (hroot : schema.find? root = some t) :
    (∃ steps, schema.inspect root path = .ok steps) ↔ schema.Follows t (Path.segments path) := by
  rw [follows_iff (Path.segments_ne_nil path)]
  exact exists_congr fun _ => inspect_eq_ok_iff hroot

/-- Two paths joined by a dot are walked one after the other. -/
theorem Schema.inspect_append {root p q : String} {result : List Step}
    (hroot : schema.find? root = some t) :
    schema.inspect root (p ++ "." ++ q) = .ok result ↔
      ∃ front last name back,
        schema.inspect root p = .ok front ∧ front.getLast? = some last ∧
          last.attr.isRelation = true ∧ last.attr.target? = some name ∧
          schema.contains name = true ∧ schema.inspect name q = .ok back ∧
          result = front ++ back := by
  rw [inspect_eq_ok_iff hroot, Path.segments_append]
  constructor
  · intro hwhole
    obtain ⟨hpath, hnames, hempty⟩ := hwhole
    obtain ⟨front, back, rfl, hfront, hback⟩ := List.map_eq_append_iff.mp hnames
    rw [List.mem_append, not_or] at hempty
    have hfront_ne : front ≠ [] := by
      intro hnil
      exact Path.segments_ne_nil p (by rw [← hfront, hnil]; rfl)
    have hback_ne : back ≠ [] := by
      intro hnil
      exact Path.segments_ne_nil q (by rw [← hback, hnil]; rfl)
    obtain ⟨hp, last, u, hlast, hu, hq⟩ := (IsPath.append_iff hfront_ne hback_ne).mp hpath
    obtain ⟨name, hname, hfind⟩ := Option.bind_eq_some_iff.mp hu
    refine ⟨front, last, name, back, (inspect_eq_ok_iff hroot).mpr ⟨hp, hfront, hempty.1⟩, hlast,
      ?_, hname, ?_, (inspect_eq_ok_iff hfind).mpr ⟨hq, hback, hempty.2⟩, rfl⟩
    · rw [Attribute.isRelation, isTerminal_of_target? hu]
      rfl
    · rw [contains, hfind]
      rfl
  · intro hparts
    obtain ⟨front, last, name, back, hfront, hlast, -, hname, hcontains, hback, hresult⟩ := hparts
    obtain ⟨u, hfind⟩ := Option.isSome_iff_exists.mp hcontains
    obtain ⟨hp, hpnames, hpempty⟩ := (inspect_eq_ok_iff hroot).mp hfront
    obtain ⟨hq, hqnames, hqempty⟩ := (inspect_eq_ok_iff hfind).mp hback
    have hu : schema.target? last.attr = some u := by rw [target?, hname, Option.bind_some, hfind]
    subst hresult
    refine ⟨(IsPath.append_iff hp.ne_nil hq.ne_nil).mpr ⟨hp, last, u, hlast, hu, hq⟩, ?_, ?_⟩
    · rw [List.map_append, hpnames, hqnames]
    · rw [List.mem_append, not_or]
      exact ⟨hpempty, hqempty⟩

/-- **What inspecting a path finds.** From a registered type, a path is found exactly if it can be
followed: every segment names an attribute of the type reached so far, and all but the last lead
on to a registered type. What is found is one step for each segment, named as the path is; every
step reads an attribute that its type declares, the first starts from the root, and each of the
others where the one before it leads. A path that is joined from two is found exactly if the first
part is and ends in a relation to a registered type from which the second part is found, and the
steps are those of the one and then those of the other. -/
theorem Schema.inspect_follows {root : String} (hroot : schema.find? root = some t) :
    (∀ path, (∃ steps, schema.inspect root path = .ok steps) ↔
      schema.Follows t (Path.segments path)) ∧
    (∀ path steps, schema.inspect root path = .ok steps →
      steps.length = (Path.segments path).length ∧
      Path.join (steps.map fun s => s.attr.name) = path ∧
      (∀ s ∈ steps, s.owner.attribute? s.attr.name = some s.attr) ∧
      steps.head?.map (·.owner) = some t ∧
      steps.IsChain fun s next => schema.target? s.attr = some next.owner) ∧
    ∀ p q result, schema.inspect root (p ++ "." ++ q) = .ok result ↔
      ∃ front last name back,
        schema.inspect root p = .ok front ∧ front.getLast? = some last ∧
          last.attr.isRelation = true ∧ last.attr.target? = some name ∧
          schema.contains name = true ∧ schema.inspect name q = .ok back ∧
          result = front ++ back := by
  refine ⟨fun path => follows_iff_inspect hroot, ?_, fun p q result => inspect_append hroot⟩
  intro path steps hsteps
  obtain ⟨hpath, hnames, -⟩ := (inspect_eq_ok_iff hroot).mp hsteps
  obtain ⟨hchain, hhead⟩ := hpath.isChain
  refine ⟨?_, ?_, hpath.declared, hhead, hchain⟩
  · rw [← hnames, List.length_map]
  · rw [hnames, Path.join_segments]

/-- The texts of the notes of a person's parent are found by way of the parent, and nothing is
found behind a name. -/
theorem Schema.inspect_follows_parent :
    (Schema.ofList Samples.all).find? "person" = some Samples.person ∧
      (∃ front last name back,
        (Schema.ofList Samples.all).inspect "person" "parent" = .ok front ∧
          front.getLast? = some last ∧ last.attr.isRelation = true ∧
          last.attr.target? = some name ∧ (Schema.ofList Samples.all).contains name = true ∧
          (Schema.ofList Samples.all).inspect name "notes.text" = .ok back ∧
          (front ++ back).map (fun s => s.attr.name) = ["parent", "notes", "text"]) ∧
      ¬ (Schema.ofList Samples.all).Follows Samples.person (Path.segments "name.text") := by
  have hroot : (Schema.ofList Samples.all).find? "person" = some Samples.person := by rfl
  obtain ⟨hfollows, hsteps, happend⟩ := Schema.inspect_follows hroot
  refine ⟨hroot, ?_, ?_⟩
  · have hnames : ((Schema.ofList Samples.all).inspect "person"
        ("parent" ++ "." ++ "notes.text")).toOption.map (fun steps => steps.map (·.attr.name)) =
          some ["parent", "notes", "text"] := by decide +kernel
    cases hresult : (Schema.ofList Samples.all).inspect "person"
        ("parent" ++ "." ++ "notes.text") with
    | error e =>
      rw [hresult] at hnames
      cases hnames
    | ok result =>
      rw [hresult] at hnames
      obtain ⟨front, last, name, back, hp, hlast, hrel, hname, hcontains, hq, rfl⟩ :=
        (happend "parent" "notes.text" result).mp hresult
      exact ⟨front, last, name, back, hp, hlast, hrel, hname, hcontains, hq, Option.some.inj hnames⟩
  · rw [← hfollows]
    intro ⟨steps, hsteps⟩
    have hfails : ((Schema.ofList Samples.all).inspect "person" "name.text").toOption.isSome =
        false := by decide +kernel
    rw [hsteps] at hfails
    cases hfails

end EntityStore
