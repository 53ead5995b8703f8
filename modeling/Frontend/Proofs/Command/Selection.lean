import Frontend.Proofs.Command.Jobs
import Frontend.Proofs.Source.Directories

/-!
# Which files a list parses

A list chooses directories by the ending of source files that the configuration of the directory
above gives, and then loads each of them with its own configuration. Where both give the same
ending, the files that made a directory a module are those that are parsed for it. Where they do
not, other files are parsed, or none: a directory with an ending of its own that none of its files
has is reported to be in order.
-/

namespace Frontend

open Frontend.Action

namespace SourceModule

variable {t : FileTree} {path ext d : Text} {es : List (Text × Entry)}

/-! ### Chosen directories -/

/-- A path names a directory, and the path of some file in it has the ending of source files. -/
structure Chosen (t : FileTree) (ext d : Text) (es : List (Text × Entry)) : Prop where
  entry : t.entry d = .ok (.directory es)
  endsWithName : Path.EndsWithName d
  source : ∃ n content, (n, .file content) ∈ es ∧ ext <:+ Path.join d n

/-- A directory that the search finds is chosen for a file whose path has the ending. -/
lemma exists_chosen_of_mem_dirsBeneath {e : Entry} (ht : t.Proper) (hp : Path.EndsWithName path)
    (he : t.entry path = .ok e) (hd : d ∈ dirsBeneath ext path e) : ∃ es, Chosen t ext d es := by
  obtain ⟨ns, es, hf, rfl, hsource⟩ :=
    (mem_dirsBeneath path e (FileTree.sorted_of_entry ht he)).1 hd
  have hns := ((FileTree.named_of_entry ht he).of_find? hf).1
  exact ⟨es, FileTree.entry_foldl_join ht he hf,
    hp.foldl_join (FileTree.ne_nil_of_entry he) fun n hn => (hns n hn).toIsName, hsource⟩

end SourceModule

namespace Command

variable {o : Options} {t : FileTree} {path d : Text} {config own : Config} {p : Project}
  {projects : List Project} {es : List (Text × Entry)}

/-- A directory that is chosen with the ending of one configuration and loaded with another one. -/
structure Listed (o : Options) (t : FileTree) (config : Config) (d : Text)
    (es : List (Text × Entry)) (own : Config) (p : Project) : Prop where
  chosen : SourceModule.Chosen t config.ext d es
  loads : Loads o t d own p
  /-- A configuration that the user has named is used for all directories. -/
  given : o.config ≠ [] → own = config
  directory : t.entry p.source.dir = .ok (.directory es)
  /-- The files of the project have the ending that its own configuration gives. -/
  files : ∀ f, f ∈ p.source.files ↔
    ∃ n content, (n, .file content) ∈ es ∧ own.ext <:+ n ∧ f = Path.join p.source.dir n
  ordered : p.source.files.Pairwise (· < ·)
  read : ∀ n content, (n, .file content) ∈ es →
    t.read (Path.join p.source.dir n) = .ok content
  /-- If both endings are the same, the files are those that the directory was chosen for. -/
  agree : own.ext = config.ext → Path.slash ∉ config.ext → p.source.files ≠ [] ∧
    ∀ n content, (n, .file content) ∈ es →
      (Path.join p.source.dir n ∈ p.source.files ↔ config.ext <:+ Path.join d n)
  /-- The line says that the directory is in order if the files can be parsed. -/
  line : (∃ name, entryOf p (failureOf t p) = Project.okLine name) ↔
    ∃ m, (p.source.parse t p.precedence).2 = .ok m

/-- The line about a project says that it is in order if its files have been parsed. -/
lemma exists_okLine_iff (ht : Path.isAbsolute t.workingDir = true) (h : Loads o t d own p) :
    (∃ name, entryOf p (failureOf t p) = Project.okLine name) ↔
      ∃ m, (p.source.parse t p.precedence).2 = .ok m := by
  have hfiles : ∀ f ∈ p.source.files, Path.isAbsolute f = true :=
    fun f hf => SourceModule.isAbsolute_of_load ht h.source hf
  rw [failureOf]
  cases hm : (p.source.parse t p.precedence).2 with
  | ok m => exact ⟨fun _ => ⟨m, rfl⟩, fun _ => ⟨_, rfl⟩⟩
  | error e =>
    refine ⟨?_, ?_⟩
    · rintro ⟨name, hline⟩
      have hline : e.message = Project.okLine name := hline
      have hok : BeginsOk e.message := hline ▸ ⟨0x20 :: name, rfl⟩
      exact absurd hok (SourceModule.not_beginsOk_of_parse hfiles hm)
    · rintro ⟨m, ⟨⟩⟩

lemma listed_of_chosen (ht : t.Proper) (hc : o.configFor t path = .ok config)
    (hd : SourceModule.Chosen t config.ext d es) (h : Loads o t d own p) :
    Listed o t config d es own p := by
  have hresolved := FileTree.entry_resolve ht hd.endsWithName hd.entry
  obtain ⟨hdir, hfiles⟩ := SourceModule.load_of_directory hresolved h.source
  rw [← hdir] at hresolved
  -- of the entries of a directory, the same ones make it a module and are its sources
  have hsource : own.ext = config.ext → Path.slash ∉ config.ext → ∀ n content,
      (n, .file content) ∈ es →
      (Path.join p.source.dir n ∈ p.source.files ↔ config.ext <:+ Path.join d n) := by
    intro hext hslash n content hn
    have hname := (FileTree.validName_of_entry ht hd.entry _ hn).toIsName
    rw [hfiles, SourceModule.join_mem_sourcesIn ht hresolved hn, hext,
      Path.suffix_join_iff (FileTree.ne_nil_of_entry hd.entry) hname hslash]
  exact {
    chosen := hd
    loads := h
    given := by
      intro hgiven
      have hown := h.configured
      rw [Options.configFor, if_pos hgiven] at hc hown
      exact Except.ok.inj (hown.symm.trans hc)
    directory := hresolved
    files := by
      intro f
      rw [hfiles, SourceModule.mem_sourcesIn]
    ordered := by
      rw [hfiles]
      exact SourceModule.pairwise_sourcesIn ht hresolved
    read := by
      intro n content hn
      rw [FileTree.read, FileTree.entry_join ht hresolved hn]
    agree := by
      intro hext hslash
      obtain ⟨n, content, hn, hsuffix⟩ := hd.source
      exact ⟨List.ne_nil_of_mem ((hsource hext hslash n content hn).2 hsuffix),
        hsource hext hslash⟩
    line := exists_okLine_iff ht.absolute h
  }

/-! ### Lists -/

lemma settles_loadModules (o : Options) (t : FileTree) (path : Text) :
    (loadModules o t path).Settles :=
  (settles_ofExceptWithin _ _).bind fun _ => (settles_ofExcept _).bind fun dirs =>
    settles_mapM (Project.settles_load o t) dirs

lemma loadAll_of_mapM {dirs : List Text} {c : Console}
    (h : ((dirs.mapM (Project.load o t)).runOn c).1 = .ok projects) :
    LoadAll o t dirs projects := by
  induction dirs generalizing projects c with
  | nil =>
    obtain rfl := pure_eq_ok.1 h
    exact .nil
  | cons d dirs ih =>
    rw [List.mapM_cons] at h
    obtain ⟨p, hp, h⟩ := bind_eq_ok.1 h
    obtain ⟨projects, hprojects, h⟩ := bind_eq_ok.1 h
    obtain rfl := pure_eq_ok.1 h
    exact .cons (Project.load_eq_ok.1 hp) (ih hprojects)

/-- The modules of a list are the projects that are loaded from the chosen directories. -/
lemma loadModules_eq_ok {c : Console} (h : ((loadModules o t path).runOn c).1 = .ok projects) :
    ∃ config dirs, o.configFor t path = .ok config ∧
      SourceModule.dirs t path config.ext = .ok dirs ∧ LoadAll o t dirs projects := by
  obtain ⟨config, hc, h⟩ := bind_eq_ok.1 h
  obtain ⟨dirs, hd, h⟩ := bind_eq_ok.1 h
  exact ⟨config, dirs, ofExceptWithin_eq_ok.1 hc, ofExcept_eq_ok.1 hd, loadAll_of_mapM h⟩

lemma chosen_of_mem_dirs {ext : Text} {dirs : List Text} (ht : t.Proper)
    (hp : Path.EndsWithName path) (h : SourceModule.dirs t path ext = .ok dirs) (hd : d ∈ dirs) :
    ∃ es, SourceModule.Chosen t ext d es := by
  rw [SourceModule.dirs] at h
  cases he : t.stat path with
  | error e => simp [he] at h
  | ok e =>
    rw [he] at h
    obtain rfl := Except.ok.inj h
    exact SourceModule.exists_chosen_of_mem_dirsBeneath ht hp (FileTree.stat_eq_ok.1 he) hd

/-- A list has a line for each directory that it has chosen, about the files in it whose names have
the ending of its own configuration. If loading fails, there are no lines. -/
theorem list_parses_own_sources (ht : t.Proper) (hp : Path.EndsWithName path) :
    (∃ e, (loadModules o t path).Fails e [] ∧
      ∀ signals, (run o t signals (.list path)).Fails e []) ∨
    ∃ config dirs projects, o.configFor t path = .ok config ∧
      SourceModule.dirs t path config.ext = .ok dirs ∧
      List.Forall₂ (fun d p => ∃ es own, Listed o t config d es own p) dirs projects ∧
      ∀ signals, Reports (run o t signals (.list path)) none
        (projects.map fun p => (failureOf t p, entryOf p (failureOf t p))) := by
  rcases settles_loadModules o t path with ⟨projects, hload⟩ | ⟨e, hload⟩
  · obtain ⟨config, dirs, hc, hd, hall⟩ := loadModules_eq_ok (hload {}).1
    refine .inr ⟨config, dirs, projects, hc, hd, ?_, reports_list hc hd hall⟩
    have hchosen := (List.forall₂_and_left _ _).2
      ⟨fun d hmem => chosen_of_mem_dirs ht hp hd hmem, hall⟩
    refine hchosen.imp ?_
    rintro d p ⟨⟨es, hes⟩, own, hown⟩
    exact ⟨es, own, listed_of_chosen ht hc hes hown⟩
  · exact .inl ⟨e, hload, fun signals => hload.bind.bind⟩

/-- One directory with the ending of the directory above, and one with another in which a file that
cannot be parsed has the first ending and is left out. -/
theorem list_parses_own_sources_two : ∃ t config es es' own own' p q,
    t = (((((({ workingDir := Text.ofString "/w" } : FileTree).write
      (Text.ofString "/w/nilla.toml") (Text.ofString "ext = \".n\"\n")).write
      (Text.ofString "/w/a/nilla.toml") (Text.ofString "ext = \".n\"\n")).write
      (Text.ofString "/w/a/x.n") (Text.ofString "def f\n 1\nend\n")).write
      (Text.ofString "/w/b/nilla.toml") (Text.ofString "ext = \".m\"\n")).write
      (Text.ofString "/w/b/x.n") (Text.ofString "def g\n y\nend\n")).write
      (Text.ofString "/w/b/y.m") (Text.ofString "def h\n 2\nend\n") ∧ t.Proper ∧
    Listed {} t config (Text.ofString "a") es own p ∧
    Listed {} t config (Text.ofString "b") es' own' q ∧
    own.ext = config.ext ∧ p.source.files = [Text.ofString "/w/a/x.n"] ∧
    own'.ext ≠ config.ext ∧ q.source.files = [Text.ofString "/w/b/y.m"] ∧
    (run {} t [] (.list Path.dot)).Finishes none (Text.ofString "ok /w/a\nok /w/b\n") := by
  obtain ⟨t, ht⟩ : ∃ t, t = (((((({ workingDir := Text.ofString "/w" } : FileTree).write
      (Text.ofString "/w/nilla.toml") (Text.ofString "ext = \".n\"\n")).write
      (Text.ofString "/w/a/nilla.toml") (Text.ofString "ext = \".n\"\n")).write
      (Text.ofString "/w/a/x.n") (Text.ofString "def f\n 1\nend\n")).write
      (Text.ofString "/w/b/nilla.toml") (Text.ofString "ext = \".m\"\n")).write
      (Text.ofString "/w/b/x.n") (Text.ofString "def g\n y\nend\n")).write
      (Text.ofString "/w/b/y.m") (Text.ofString "def h\n 2\nend\n") := ⟨_, rfl⟩
  have hproper : t.Proper := by
    subst ht
    refine .write (.write (.write (.write (.write (.write (FileTree.proper_empty _ rfl rfl)
      rfl ?_ ?_ _) rfl ?_ ?_ _) rfl ?_ ?_ _) rfl ?_ ?_ _) rfl ?_ ?_ _) rfl ?_ ?_ _ <;> decide
  obtain ⟨config, hc, hext, hd⟩ : ∃ config, Options.configFor {} t Path.dot = .ok config ∧
      config.ext = Text.ofString ".n" ∧
      SourceModule.dirs t Path.dot config.ext = .ok [Text.ofString "a", Text.ofString "b"] := by
    subst ht
    exact ⟨_, by cbv, by cbv, by cbv⟩
  -- each directory is loaded with its own ending
  obtain ⟨own₁, prec₁, source₁, hc₁, hext₁, hp₁, hs₁, hdir₁, hfiles₁, u₁, hadd₁, m₁, hm₁⟩ :
      ∃ own prec source, Options.configFor {} t (Text.ofString "a") = .ok own ∧
        own.ext = Text.ofString ".n" ∧ own.table = .ok prec ∧
        SourceModule.load t (Text.ofString "a") own.ext = .ok source ∧
        source.dir = Text.ofString "/w/a" ∧ source.files = [Text.ofString "/w/a/x.n"] ∧
        ∃ u, CompilationUnit.addFiles t source.files {} = (u, none) ∧
          ∃ m, u.parse prec = .ok m := by
    subst ht
    exact ⟨_, _, _, by cbv, by cbv, by cbv, by cbv, by cbv, by cbv, _, by cbv, _, by rfl⟩
  obtain ⟨own₂, prec₂, source₂, hc₂, hext₂, hp₂, hs₂, hdir₂, hfiles₂, u₂, hadd₂, m₂, hm₂⟩ :
      ∃ own prec source, Options.configFor {} t (Text.ofString "b") = .ok own ∧
        own.ext = Text.ofString ".m" ∧ own.table = .ok prec ∧
        SourceModule.load t (Text.ofString "b") own.ext = .ok source ∧
        source.dir = Text.ofString "/w/b" ∧ source.files = [Text.ofString "/w/b/y.m"] ∧
        ∃ u, CompilationUnit.addFiles t source.files {} = (u, none) ∧
          ∃ m, u.parse prec = .ok m := by
    subst ht
    exact ⟨_, _, _, by cbv, by cbv, by cbv, by cbv, by cbv, by cbv, _, by cbv, _, by rfl⟩
  obtain ⟨p, hp⟩ : ∃ p, p = Project.mk prec₁ source₁ := ⟨_, rfl⟩
  obtain ⟨q, hq⟩ : ∃ q, q = Project.mk prec₂ source₂ := ⟨_, rfl⟩
  have hnone₁ : failureOf t p = none := by
    simp only [failureOf, SourceModule.parse, hp, hadd₁, hm₁]
  have hnone₂ : failureOf t q = none := by
    simp only [failureOf, SourceModule.parse, hq, hadd₂, hm₂]
  have hl₁ : Loads {} t (Text.ofString "a") own₁ p := hp ▸ ⟨hc₁, hp₁, hs₁⟩
  have hl₂ : Loads {} t (Text.ofString "b") own₂ q := hq ▸ ⟨hc₂, hp₂, hs₂⟩
  have hload := finishes_loadModules hc hd (.cons ⟨_, hl₁⟩ (.cons ⟨_, hl₂⟩ .nil))
  obtain ⟨e, he, -⟩ | ⟨config', dirs, projects, hc', hd', hlisted, hreports⟩ :=
    list_parses_own_sources hproper (.inr (by decide) : Path.EndsWithName Path.dot)
  · exact absurd ((hload {}).1.symm.trans (he {}).1) (by simp)
  obtain rfl := Except.ok.inj (hc.symm.trans hc')
  obtain rfl := Except.ok.inj (hd.symm.trans hd')
  -- the two projects of the list are those that were loaded above
  cases hlisted with
  | cons ha hlisted =>
    cases hlisted with
    | cons hb hlisted =>
      cases hlisted
      obtain ⟨es, own, ha⟩ := ha
      obtain ⟨es', own', hb⟩ := hb
      obtain ⟨rfl, rfl⟩ := hl₁.unique ha.loads
      obtain ⟨rfl, rfl⟩ := hl₂.unique hb.loads
      have hreport := hreports []
      rw [List.map_cons, List.map_singleton, hnone₁, hnone₂, entryOf, entryOf, hp, hq, hdir₁,
        hdir₂] at hreport
      exact ⟨t, config, es, es', own₁, own₂, p, q, ht, hproper, ha, hb, hext₁.trans hext.symm,
        hp ▸ hfiles₁, by rw [hext₂, hext]; decide, hq ▸ hfiles₂, hreport.1 rfl⟩

/-- A list says that a directory is in order though the file that made it a module has not been
parsed, and cannot be: the directory is chosen with the ending that the configuration of the
directory above gives, and loaded with the built-in one. -/
theorem list_ok_without_sources : ∃ t p config e,
    t = (({ workingDir := Text.ofString "/w" } : FileTree).write
      (Text.ofString "/w/nilla.toml") (Text.ofString "ext = \".n\"\n")).write
      (Text.ofString "/w/a/x.n") (Text.ofString "def g()\n  y\nend\n") ∧ t.Proper ∧
    Options.configFor {} t Path.dot = .ok config ∧
    SourceModule.dirs t Path.dot config.ext = .ok [Text.ofString "a"] ∧
    LoadAll {} t [Text.ofString "a"] [p] ∧ p.source.files = [] ∧
    (run {} t [] (.list Path.dot)).Finishes none (Text.ofString "ok /w/a\n") ∧
    (run {} t [] (.check (Text.ofString "a/x.n"))).Fails e [] := by
  obtain ⟨t, ht⟩ : ∃ t, t = (({ workingDir := Text.ofString "/w" } : FileTree).write
      (Text.ofString "/w/nilla.toml") (Text.ofString "ext = \".n\"\n")).write
      (Text.ofString "/w/a/x.n") (Text.ofString "def g()\n  y\nend\n") := ⟨_, rfl⟩
  have hproper : t.Proper := by
    subst ht
    exact ((FileTree.proper_empty _ rfl rfl).write rfl (by decide) (by decide) _).write rfl
      (by decide) (by decide) _
  obtain ⟨config, hc, hd⟩ : ∃ config, Options.configFor {} t Path.dot = .ok config ∧
      SourceModule.dirs t Path.dot config.ext = .ok [Text.ofString "a"] := by
    subst ht
    exact ⟨_, by cbv, by cbv⟩
  -- loaded as a directory, without any source file, and loaded as a file
  obtain ⟨own, prec, source, hown, hprec, hsource, hdir, hfiles, m, hm⟩ :
      ∃ own prec source, Options.configFor {} t (Text.ofString "a") = .ok own ∧
        own.table = .ok prec ∧ SourceModule.load t (Text.ofString "a") own.ext = .ok source ∧
        source.dir = Text.ofString "/w/a" ∧ source.files = [] ∧
        ∃ m, (source.parse t prec).2 = .ok m := by
    subst ht
    exact ⟨_, _, _, by cbv, by cbv, by cbv, by cbv, by cbv, _, by rfl⟩
  obtain ⟨own', prec', source', hown', hprec', hsource', u, hadd, e, he⟩ :
      ∃ own prec source, Options.configFor {} t (Text.ofString "a/x.n") = .ok own ∧
        own.table = .ok prec ∧ SourceModule.load t (Text.ofString "a/x.n") own.ext = .ok source ∧
        ∃ u, CompilationUnit.addFiles t source.files {} = (u, none) ∧
          ∃ e, u.parse prec = .error e := by
    subst ht
    exact ⟨_, _, _, by cbv, by cbv, by cbv, _, by cbv, _, by rfl⟩
  have hcheck : (run {} t [] (.check (Text.ofString "a/x.n"))).Fails e [] := by
    have hq : Loads {} t (Text.ofString "a/x.n") own' ⟨prec', source'⟩ := ⟨hown', hprec', hsource'⟩
    exact fails_check hq (by simp only [SourceModule.parse, hadd, he]) []
  obtain ⟨p, hp⟩ : ∃ p, p = Project.mk prec source := ⟨_, rfl⟩
  have hload : Loads {} t (Text.ofString "a") own p := hp ▸ ⟨hown, hprec, hsource⟩
  have hall : LoadAll {} t [Text.ofString "a"] [p] := .cons ⟨_, hload⟩ .nil
  have hnone : failureOf t p = none := by
    rw [failureOf, hp, hm]
  have hlist : (run {} t [] (.list Path.dot)).Finishes none (Text.ofString "ok /w/a\n") := by
    have hreport := reports_list hc hd hall []
    rw [List.map_singleton, hnone, entryOf, hp, hdir] at hreport
    exact hreport.1 rfl
  exact ⟨t, p, config, e, ht, hproper, hc, hd, hall, hp ▸ hfiles, hlist, hcheck⟩

end Command

end Frontend
