import EntityStore.Proofs.Repository.Twins

/-!
# Writing tables

A table is written as a whole, and nothing else is: a dump that fails leaves every table as it was,
and one that goes through changes no table but its own. So wherever a commit fails, each table either
is as it was or is made of what the repository holds by then. When the commit goes through, the
latter is the case for all tables of the types that it touches.
-/

namespace EntityStore

namespace Directory

variable {d d' : Directory} {table other : String} {rows : List Json}

/-! ## Tables in a directory -/

/-- Two tables that are not kept in one file. -/
def Apart (d : Directory) (table other : String) : Prop :=
  ∀ place ∈ d.place? table, place ∉ d.place? other

instance (d : Directory) (table other : String) : Decidable (d.Apart table other) :=
  inferInstanceAs (Decidable (∀ place ∈ d.place? table, place ∉ d.place? other))

theorem Apart.congr (hsite : d'.toSite = d.toSite) (h : d.Apart table other) :
    d'.Apart table other := by
  unfold Apart
  rw [place?_congr hsite, place?_congr hsite]
  exact h

/-- Names without a slash that differ are those of different files. -/
theorem apart_of_not_mem (d : Directory) (htable : '/' ∉ table.toList) (hother : '/' ∉ other.toList)
    (hne : table ≠ other) : d.Apart table other := by
  intro place hplace hplace'
  rw [place?_of_not_mem d htable] at hplace
  rw [place?_of_not_mem d hother] at hplace'
  refine hne (String.append_left_inj ".jsonl" |>.mp ?_)
  exact Option.some.inj (hplace.trans hplace'.symm)

theorem content?_write_of_ne {name target : String} (hne : name ≠ target) (content : ByteArray) :
    (d.write target content).content? name = d.content? name := by
  have hfind : ∀ files : List (String × ByteArray),
      (putFile target content files).find? (fun f => f.1 == name)
        = files.find? fun f => f.1 == name := by
    intro files
    induction files with
    | nil => simp [putFile, Ne.symm hne]
    | cons f rest ih =>
      obtain ⟨n, old⟩ := f
      by_cases hn : n = target
      · simp [putFile, hn, Ne.symm hne]
      · rw [putFile, if_neg hn, List.find?_cons, List.find?_cons, ih]
  rw [content?, content?, write, hfind]

theorem content?_erase_of_ne {name target : String} (hne : name ≠ target) :
    (d.erase target).content? name = d.content? name := by
  rw [content?, content?, erase, List.find?_filter]
  congr 2
  funext f
  by_cases hf : f.1 = name
  · simp [hf, hne]
  · simp [hf]

theorem content?_rename_of_ne {name source target : String} (hsource : name ≠ source)
    (htarget : name ≠ target) : (d.rename source target).content? name = d.content? name := by
  unfold rename
  cases d.content? source with
  | none => rfl
  | some content => rw [content?_write_of_ne htarget, content?_erase_of_ne hsource]

/-- No temporary file is the file of a table: they end differently. -/
theorem place_ne_temporary (folder folder' table other : String) :
    folder ++ fileName table ≠ folder' ++ temporaryName other := by
  intro heq
  have hlast := congrArg (fun s : String => s.toList.getLast?) heq
  have htemporary : (folder' ++ temporaryName other).toList.getLast? = some 'p' := by
    unfold temporaryName temporaryEnding
    split <;> rw [← String.append_assoc, String.toList_append, List.getLast?_append] <;> rfl
  have hfile : (folder ++ fileName table).toList.getLast? = some 'l' := by
    unfold fileName
    rw [← String.append_assoc, String.toList_append, List.getLast?_append]
    rfl
  rw [hfile, htemporary] at hlast
  exact absurd hlast (by decide)

/-- What is read from a table is what is kept of it. -/
theorem load_congr (hsite : d'.toSite = d.toSite) (hkept : d'.kept? table = d.kept? table) :
    d'.load table = d.load table := by
  unfold load filePath
  rw [hkept, hsite]

theorem content?_erase_self (d : Directory) (name : String) : (d.erase name).content? name = none := by
  rw [content?, erase, List.find?_filter]
  simp

/-- A file that is given another name is gone under its own. -/
theorem content?_rename_source {source target : String} (hne : source ≠ target) :
    (d.rename source target).content? source = none := by
  unfold rename
  cases hcontent : d.content? source with
  | none => exact hcontent
  | some content => rw [content?_write_of_ne hne, content?_erase_self]

/-- **The files once a table is written**: its own holds the rows, the temporary one is gone, and all
others are as they were. -/
theorem content?_of_dump (hdump : d.dump table rows = .ok d') :
    d'.toSite = d.toSite ∧ ∃ folder, d.folderOf? table = some folder ∧
      d'.content? (folder ++ fileName table) = some (writeRows rows).toUTF8 ∧
      d'.content? (folder ++ temporaryName table) = none ∧
      ∀ name, name ≠ folder ++ fileName table → name ≠ folder ++ temporaryName table →
        d'.content? name = d.content? name := by
  unfold dump at hdump
  split at hdump
  · cases hdump
  · cases hfolder : d.folderOf? table with
    | none =>
      rw [hfolder] at hdump
      cases hdump
    | some folder =>
      rw [hfolder] at hdump
      obtain rfl := Except.ok.inj hdump
      refine ⟨toSite_rename _ _ _, folder, rfl, content?_rename (content?_write_self _ _ _),
        content?_rename_source (place_ne_temporary _ _ _ _).symm, ?_⟩
      intro name hfile htmp
      rw [content?_rename_of_ne htmp hfile, content?_write_of_ne htmp]

/-- **A table that is written**: nothing else is. -/
theorem of_dump (hdump : d.dump table rows = .ok d') :
    d'.toSite = d.toSite ∧ d'.kept? table = some (writeRows rows).toUTF8 ∧
      ∀ other, d.Apart table other → d'.kept? other = d.kept? other := by
  obtain ⟨hsite, folder, hfolder, hfile, -, hothers⟩ := content?_of_dump hdump
  refine ⟨hsite, ?_, ?_⟩
  · rw [kept?_of_folderOf? ((folderOf?_congr hsite table).trans hfolder), hfile]
  · intro other hapart
    rw [kept?, kept?, place?_congr hsite]
    cases hother : d.folderOf? other with
    | none =>
      rw [place?, hother]
      rfl
    | some folder' =>
      have hplace := place?_of_folderOf? hother
      rw [hplace]
      refine hothers _ ?_ (place_ne_temporary _ _ _ _)
      intro heq
      exact hapart _ (place?_of_folderOf? hfolder) (heq ▸ hplace)

end Directory

namespace Cache

variable {c c' : Cache} {pool pool' : Pool} {change : Change}

theorem type_add (pool : Pool) (h : Handle) (c : Cache) : (c.add pool h).2.type = c.type := by
  rcases add_cases pool h c with ⟨-, hadd⟩ | ⟨-, e, -, hadd⟩ | ⟨-, -, hadd⟩ <;> rw [hadd] <;>
    exact type_refresh pool c

theorem type_remove (pool : Pool) (h : Handle) (c : Cache) : (c.remove pool h).2.type = c.type := by
  rcases remove_cases pool h c with ⟨-, hremove⟩ | ⟨gone, -, -, hremove⟩ <;> rw [hremove]

/-- A cache stays one of its type. -/
theorem type_apply (change : Change) (c : Cache) (pool : Pool) :
    (c.apply change pool).2.1.type = c.type := by
  obtain ⟨kind, h⟩ := change
  unfold apply
  by_cases htyped : pool.typeName h = c.type
  · simp only [htyped, ne_eq, not_true_eq_false, if_false]
    cases kind with
    | add => exact type_add _ _ c
    | update =>
      simp only
      rcases swapIn_cases (pool.detach h).2 (pool.detach h).1 c with
        ⟨-, hswap⟩ | ⟨old, -, id, -, -, hswap⟩ <;> rw [hswap]
    | remove => exact type_remove pool h c
  · simp only [ne_eq, htyped, not_false_eq_true, if_true]

/-- A change goes to a cache of its type, or not through. -/
theorem typeName_of_apply (happly : (c.apply change pool).1 = .ok ()) :
    pool.typeName change.entity = c.type := by
  by_contra htyped
  unfold apply at happly
  simp only [ne_eq, htyped, not_false_eq_true, if_true] at happly
  cases happly

end Cache

namespace Store

variable {s s' : Store} {type : String} {format : RowFormat} {c : Cache} {cs : Caches}
  {changes : Changeset}

/-! ## A store of tables -/

/-- A store that keeps types as rows of tables, each in a file of its own, and loads these types from
there and no others from anywhere. -/
structure Tabular (s : Store) : Prop where
  loader : ∀ type, s.repository.loader? type = (s.repository.format? type).map .ofRows
  apart : ∀ {type format other format'}, s.repository.format? type = some format →
    s.repository.format? other = some format' → type ≠ other →
    s.directory.Apart format.type.table format'.type.table

theorem Tabular.congr (hs : s.Tabular) (hloader : s'.repository.loader? = s.repository.loader?)
    (hformat : s'.repository.format? = s.repository.format?)
    (hsite : s'.directory.toSite = s.directory.toSite) : s'.Tabular where
  loader := by
    rw [hloader, hformat]
    exact hs.loader
  apart := by
    rw [hformat]
    exact fun hfound hfound' hne => (hs.apart hfound hfound' hne).congr hsite

/-- What is kept of the table of a format. -/
def kept? (s : Store) (format : RowFormat) : Option ByteArray := s.directory.kept? format.type.table

/-- A type is loaded from what is kept of its table. -/
theorem Tabular.loaded_congr (hs : s.Tabular)
    (hloader : s'.repository.loader? = s.repository.loader?)
    (hsite : s'.directory.toSite = s.directory.toSite)
    (hkept : ∀ format, s.repository.format? type = some format → s'.kept? format = s.kept? format) :
    s'.loaded type = s.loaded type := by
  rw [loaded, loaded, hloader, hs.loader]
  cases hformat : s.repository.format? type with
  | none => rfl
  | some format =>
    show (format.load s'.directory).mapError _ = (format.load s.directory).mapError _
    rw [RowFormat.load, RowFormat.load, Directory.load_congr hsite (hkept format hformat)]

/-! ## Writing caches out -/

/-- Some caches have been written out, or the writing has stopped: the table of a type among theirs is
made of what the cache lists or is as it was, and other tables are as they were. -/
structure WrittenOut (cs : Caches) (s s' : Store) : Prop where
  site : s'.directory.toSite = s.directory.toSite
  own : ∀ c ∈ cs, ∀ format, s.repository.format? c.type = some format →
    s'.kept? format = s.kept? format ∨
      s'.kept? format = some (format.file (s.pool.roster c.entities))
  others : ∀ type ∉ cs.types, ∀ format, s.repository.format? type = some format →
    s'.kept? format = s.kept? format

theorem writtenOut_self (cs : Caches) (s : Store) : WrittenOut cs s s :=
  ⟨rfl, fun _ _ _ _ => .inl rfl, fun _ _ _ _ => rfl⟩

/-- Writing one cache out. -/
theorem dump_writtenOut (hs : s.Tabular) (c : Cache) :
    WrittenOut [c] s (exec (dump c) s).2 ∧ ((exec (dump c) s).1 = .ok () →
      ∀ format, s.repository.format? c.type = some format →
        (exec (dump c) s).2.kept? format = some (format.file (s.pool.roster c.entities))) := by
  cases hformat : s.repository.format? c.type with
  | none =>
    rw [exec_dump_of_none hformat]
    exact ⟨writtenOut_self _ _, nofun⟩
  | some own =>
    have hrun : exec (dump c) s =
        match own.dump s.directory (c.entities.map s.pool.entity) with
        | .error e => (.error (.persist e), s)
        | .ok directory => (.ok (), { s with directory }) := by
      unfold dump
      simp only [exec_bind, exec_get, hformat, exec_ofExcept]
      cases own.dump s.directory (c.entities.map s.pool.entity) <;> rfl
    cases hdump : own.dump s.directory (c.entities.map s.pool.entity) with
    | error e =>
      rw [hdump] at hrun
      rw [hrun]
      exact ⟨writtenOut_self _ _, nofun⟩
    | ok d =>
      obtain ⟨hsite, hkept, hothers⟩ := Directory.of_dump hdump
      rw [hdump] at hrun
      have hfile : (exec (dump c) s).2.kept? own = some (own.file (s.pool.roster c.entities)) := by
        rw [hrun]
        exact hkept
      refine ⟨⟨?_, ?_, ?_⟩, fun _ format hfound => Option.some.inj hfound ▸ hfile⟩
      · rw [hrun]
        exact hsite
      · rintro d hd format hfound
        obtain rfl := List.mem_singleton.mp hd
        obtain rfl := Option.some.inj (hformat.symm.trans hfound)
        exact .inr hfile
      · intro type htype format hfound
        rw [hrun]
        refine hothers _ (hs.apart hformat hfound fun heq => htype ?_)
        exact List.mem_singleton.mpr heq.symm

/-- Writing one cache out after another, of another type. -/
theorem WrittenOut.cons {s₁ : Store} (hfirst : WrittenOut [c] s s₁) (hrest : WrittenOut cs s₁ s')
    (hpool : s₁.pool = s.pool) (hformat : s₁.repository.format? = s.repository.format?)
    (hc : c.type ∉ cs.types) : WrittenOut (c :: cs) s s' := by
  obtain ⟨hsite, hown, hothers⟩ := hrest
  rw [hformat, hpool] at hown
  rw [hformat] at hothers
  refine ⟨hsite.trans hfirst.site, fun d hd format hfound => ?_, fun type htype format hfound => ?_⟩
  · rcases List.mem_cons.mp hd with rfl | hd
    · rw [hothers d.type hc format hfound]
      exact hfirst.own d (List.mem_singleton_self d) format hfound
    · refine (hown d hd format hfound).imp_left fun hkept => hkept.trans ?_
      refine hfirst.others d.type (fun hmem => hc ?_) format hfound
      exact List.mem_singleton.mp hmem ▸ List.mem_map_of_mem hd
  · obtain ⟨hne, hmem⟩ := not_or.mp (mt List.mem_cons.mpr htype)
    exact (hothers type hmem format hfound).trans
      (hfirst.others type (fun hc => hne (List.mem_singleton.mp hc)) format hfound)

/-- **Writing caches out**, no two of them of one type. -/
theorem forM_dump_writtenOut (hs : s.Tabular) (hcs : cs.types.Nodup) :
    WrittenOut cs s (exec (cs.forM dump) s).2 ∧ ((exec (cs.forM dump) s).1 = .ok () →
      ∀ c ∈ cs, ∀ format, s.repository.format? c.type = some format →
        (exec (cs.forM dump) s).2.kept? format = some (format.file (s.pool.roster c.entities))) := by
  induction cs generalizing s with
  | nil => exact ⟨writtenOut_self _ _, fun _ _ hc => absurd hc List.not_mem_nil⟩
  | cons c rest ih =>
    obtain ⟨hc, hrest⟩ := List.nodup_cons.mp hcs
    obtain ⟨hfirst, hfile⟩ := dump_writtenOut hs c
    obtain ⟨hpool, hrepository⟩ := dump_keeps c s
    rw [show exec ((c :: rest).forM dump) s = exec (dump c >>= fun _ => rest.forM dump) s from rfl,
      exec_bind]
    rcases hrun : exec (dump c) s with ⟨e | _, s₁⟩
    · rw [hrun] at hfirst hpool hrepository
      exact ⟨hfirst.cons (writtenOut_self rest s₁) hpool (congrArg Repository.format? hrepository) hc,
        nofun⟩
    · rw [hrun] at hfirst hfile hpool hrepository
      have hformat : s₁.repository.format? = s.repository.format? :=
        congrArg Repository.format? hrepository
      obtain ⟨hlater, hfiles⟩ :=
        ih (hs.congr (congrArg Repository.loader? hrepository) hformat hfirst.site) hrest
      refine ⟨hfirst.cons hlater hpool hformat hc, fun hok d hd format hfound => ?_⟩
      rw [hformat, hpool] at hfiles
      rcases List.mem_cons.mp hd with rfl | hd
      · exact (hlater.others d.type hc format (hformat ▸ hfound)).trans (hfile rfl format hfound)
      · exact hfiles hok d hd format hfound

/-! ## What a commit touches -/

/-- A change that is staged is put to a cache of its type. -/
theorem of_stage {staged staged' : Caches} {change : Change}
    (hrun : exec (stage staged change) s = (.ok staged', s')) :
    s.pool.Extends s'.pool ∧ ∃ c, staged' = staged.put c ∧
      (change.entity < s.pool.next → c.type = s.pool.typeName change.entity) := by
  rw [exec_stage] at hrun
  have hextends : s.pool.Extends
      (exec (stagedOn staged (s.pool.typeName change.entity)) s).2.pool := by
    unfold stagedOn
    cases staged.find? (s.pool.typeName change.entity) with
    | some c => exact .refl _
    | none => exact extends_checkout s _
  rcases hon : exec (stagedOn staged (s.pool.typeName change.entity)) s with ⟨e | c, s₁⟩
  · rw [hon] at hrun
    cases hrun
  · rw [hon] at hrun hextends
    have happlied := Cache.extends_apply change c s₁.pool
    have htype := Cache.type_apply change c s₁.pool
    simp only at hrun
    rcases happly : c.apply change s₁.pool with ⟨e | _, c', pool⟩
    · rw [happly] at hrun
      cases hrun
    · have hfound := Cache.typeName_of_apply (congrArg Prod.fst happly)
      rw [happly] at hrun happlied htype
      obtain ⟨hstaged, rfl⟩ := Prod.mk.inj hrun
      refine ⟨hextends.trans happlied, c', (Except.ok.inj hstaged).symm, fun hlive => ?_⟩
      exact htype.trans (hfound.symm.trans (hextends.typeName hlive))

/-- **Once all is staged**, every type that is touched is, and none of them twice. -/
theorem of_stageAll {staged staged' : Caches}
    (hrun : exec (changes.foldlM stage staged) s = (.ok staged', s')) (hstaged : staged.types.Nodup) :
    staged'.types.Nodup ∧ (∀ t ∈ staged.types, t ∈ staged'.types) ∧
      ∀ change ∈ changes, change.entity < s.pool.next →
        s.pool.typeName change.entity ∈ staged'.types := by
  induction changes generalizing staged s with
  | nil =>
    obtain ⟨hsame, rfl⟩ := Prod.mk.inj hrun
    obtain rfl := Except.ok.inj hsame
    exact ⟨hstaged, fun _ ht => ht, fun _ hc => absurd hc List.not_mem_nil⟩
  | cons change rest ih =>
    rw [List.foldlM_cons, exec_bind] at hrun
    rcases hfirst : exec (stage staged change) s with ⟨e | staged₁, s₁⟩
    · rw [hfirst] at hrun
      cases hrun
    · rw [hfirst] at hrun
      obtain ⟨hextends, c, rfl, htype⟩ := of_stage hfirst
      obtain ⟨hnodup, hkept, htouched⟩ := ih hrun (Caches.nodup_types_put staged c hstaged)
      refine ⟨hnodup, fun t ht => hkept t ((Caches.mem_types_put staged c).mpr (.inr ht)), ?_⟩
      intro d hd hlive
      rcases List.mem_cons.mp hd with rfl | hd
      · exact hkept _ ((Caches.mem_types_put staged c).mpr (.inl (htype hlive).symm))
      · rw [← hextends.typeName hlive]
        exact htouched d hd (Nat.lt_of_lt_of_le hlive hextends.next_le)

theorem types_of_finishAll {cs' : Caches} (hrun : exec (cs.mapM finish) s = (.ok cs', s')) :
    cs'.types = cs.types := by
  induction cs generalizing s s' cs' with
  | nil =>
    obtain ⟨hsame, -⟩ := Prod.mk.inj hrun
    rw [← Except.ok.inj hsame]
    rfl
  | cons c rest ih =>
    have htype : ∀ c' s₁, exec (finish c) s = (.ok c', s₁) → c'.type = c.type := by
      intro c' s₁ hfinish
      rw [exec_finish] at hfinish
      cases hcheck : c.checkUnique s.pool with
      | error e =>
        rw [hcheck] at hfinish
        cases hfinish
      | ok _ =>
        rw [hcheck] at hfinish
        simp only at hfinish
        rcases hassign : Cache.assignIds (advance c.type) c.entities s.pool
          ((s.pool.roster c.entities).latest (s.repository.lastId c.type)) with ⟨e | n, pool, last⟩
        · rw [hassign] at hfinish
          cases hfinish
        · rw [hassign] at hfinish
          rw [← Except.ok.inj (Prod.mk.inj hfinish).1]
          exact Cache.type_rebuild pool c
    rw [List.mapM_cons, exec_bind] at hrun
    rcases hfirst : exec (finish c) s with ⟨e | c', s₁⟩
    · rw [hfirst] at hrun
      cases hrun
    · rw [hfirst] at hrun
      simp only [exec_bind] at hrun
      rcases hlater : exec (rest.mapM finish) s₁ with ⟨e | cs₁, s₂⟩
      · rw [hlater] at hrun
        cases hrun
      · rw [hlater] at hrun
        rw [← Except.ok.inj (Prod.mk.inj hrun).1]
        exact List.cons_eq_cons.mpr ⟨htype c' s₁ hfirst, ih hlater⟩

/-- **What a commit is about to write**: caches of the types that it touches, no two of one type, as the
repository has them by then. -/
theorem of_applyAll (hrun : exec (applyAll changes) s = (.ok cs, s')) :
    cs.types.Nodup ∧
      (∀ change ∈ changes, change.entity < s.pool.next → s.pool.typeName change.entity ∈ cs.types) ∧
      ∀ c ∈ cs, s'.repository.caches.find? c.type = some c := by
  rw [exec_applyAll] at hrun
  rcases hstage : exec (changes.foldlM stage []) s with ⟨e | staged, s₁⟩
  · rw [hstage] at hrun
    cases hrun
  · rw [hstage] at hrun
    simp only at hrun
    rcases hfinish : exec (staged.mapM finish) s₁ with ⟨e | cs', s₂⟩
    · rw [hfinish] at hrun
      cases hrun
    · rw [hfinish] at hrun
      obtain ⟨hsame, rfl⟩ := Prod.mk.inj hrun
      obtain rfl := Except.ok.inj hsame
      obtain ⟨hnodup, -, htouched⟩ := of_stageAll hstage List.nodup_nil
      have htypes := types_of_finishAll hfinish
      rw [← htypes] at hnodup htouched
      refine ⟨hnodup, htouched, fun c hc => ?_⟩
      rw [foldl_withCache]
      simp only [Caches.find?_foldl_put c.type hnodup, Caches.find?_of_mem hnodup hc]
      rfl

end Store

end EntityStore
