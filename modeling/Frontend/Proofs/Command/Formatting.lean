import Frontend.Proofs.Command.Modules
import Frontend.Proofs.Command.Outcomes
import Frontend.Proofs.FileTree.Rewriting
import Frontend.Proofs.Tree.Canonical

/-!
# Formatting in place

Formatting in place puts the canonical form of a module in the place of its only source file. It
makes no other change, and none if it fails. What it leaves behind is in order: the module is loaded
in the same way as before, since nothing that is asked on the way depends on the content of the
source file as long as that is not the config file as well; and its source is parsed as the same
module, which is written as the source that is already there.
-/

namespace Frontend

open Frontend.Action

variable {o : Options} {t t' : FileTree} {path file : Text} {config : Config} {p : Project}
  {m : Module}

/-! ### Loading again -/

lemma SourceModule.sourcesIn_outlineAll (dir ext : Text) (es : List (Text × Entry)) :
    sourcesIn dir ext (Entry.outlineAll es) = sourcesIn dir ext es := by
  simp only [sourcesIn, Entry.outlineAll_eq_map, List.filter_map, List.map_map, Function.comp_def,
    Entry.isDirectory_outline]

lemma SourceModule.load_outline (t : FileTree) (path ext : Text) :
    SourceModule.load t.outline path ext = SourceModule.load t path ext := by
  simp only [load, FileTree.stat_outline, show t.outline.workingDir = t.workingDir from rfl]
  cases t.stat (Path.resolve t.workingDir path) with
  | error e => rfl
  | ok entry =>
    cases entry with
    | file content => rfl
    | directory es => simp only [Except.map, Entry.outline, sourcesIn_outlineAll]

namespace Config

lemma findAmong_outline (t : FileTree) (dir : Text) (names : List Text) :
    findAmong t.outline dir names = findAmong t dir names := by
  induction names with
  | nil => rfl
  | cons name names ih =>
    simp only [findAmong, FileTree.stat_outline]
    cases t.stat (Path.join dir name) with
    | error e => simp only [Except.map, ih]
    | ok entry => cases entry <;> simp only [Except.map, Entry.outline, ih]

lemma path_of_load (h : load t path = .ok config) : config.path = path := by
  simp only [load] at h
  split at h
  case h_1 => cases h
  case h_2 =>
    split at h
    case h_1 => cases h
    case h_2 =>
      split at h
      case h_1 => cases h
      case h_2 =>
        obtain rfl := Except.ok.inj h
        rfl

lemma load_congr (h : t'.read path = t.read path) : load t' path = load t path := by
  simp only [load, h]

/-- The configuration that is found in a directory is found again, if its file is the same. -/
lemma loadDir_congr {dir : Text} (ho : t'.outline = t.outline) (h : loadDir t dir = .ok config)
    (hr : t'.read config.path = t.read config.path) : loadDir t' dir = .ok config := by
  have hfind : find t' dir = find t dir := by
    rw [find, find, ← findAmong_outline t', ho, findAmong_outline]
  rw [loadDir] at h ⊢
  rw [hfind]
  cases hf : find t dir with
  | error e => simp [hf] at h
  | ok found =>
    simp only [hf] at h ⊢
    cases found with
    | none => exact h
    | some file =>
      have hpath : config.path = file := path_of_load h
      rw [← h]
      exact load_congr (hpath ▸ hr)

end Config

lemma exists_file_iff (t : FileTree) (path : Text) :
    (∃ content, t.stat path = .ok (.file content)) ↔ t.outline.stat path = .ok (.file []) := by
  rw [FileTree.stat_outline]
  cases t.stat path with
  | error e => simp [Except.map]
  | ok entry => cases entry <;> simp [Except.map, Entry.outline]

/-- The configuration for a path is found again, if its file is the same. -/
lemma Options.configFor_congr (ho : t'.outline = t.outline)
    (h : o.configFor t path = .ok config) (hr : t'.read config.path = t.read config.path) :
    o.configFor t' path = .ok config := by
  have hfile : (∃ content, t'.stat path = .ok (.file content)) ↔
      ∃ content, t.stat path = .ok (.file content) := by
    rw [exists_file_iff, exists_file_iff, ho]
  rw [configFor] at h ⊢
  by_cases hc : o.config ≠ []
  · rw [if_pos hc] at h ⊢
    have hpath : config.path = o.config := Config.path_of_load h
    rw [← h]
    exact Config.load_congr (hpath ▸ hr)
  · rw [if_neg hc] at h ⊢
    split at h
    case h_1 content hs =>
      obtain ⟨content', hs'⟩ := hfile.2 ⟨content, hs⟩
      rw [hs']
      exact Config.loadDir_congr ho h hr
    case h_2 hne =>
      split
      case h_1 content' hs' =>
        obtain ⟨content, hs⟩ := hfile.1 ⟨content', hs'⟩
        exact (hne content hs).elim
      case h_2 => exact Config.loadDir_congr ho h hr

/-- A project is loaded again when a file has been rewritten that is not the config file. -/
lemma Loads.rewritten {content : Text} (h : Loads o t path config p)
    (hr : t.Rewritten t' file content) (hne : ¬t.SameEntry config.path file) :
    Loads o t' path config p := by
  refine ⟨Options.configFor_congr hr.outline h.configured (hr.others _ hne), h.table, ?_⟩
  rw [← SourceModule.load_outline, hr.outline, SourceModule.load_outline, h.source]

/-! ### Parsing again -/

/-- A module of one file is parsed as that file. -/
lemma SourceModule.parse_eq_ok {source : SourceModule} {prec : Precedence}
    (hf : source.files = [file]) : (source.parse t prec).2 = .ok m ↔ ∃ text ts,
      t.read file = .ok text ∧ Lexer.tokens text 0 = .ok ts ∧ Frontend.parse prec ts = .ok m := by
  have hzero : ((({} : CompilationUnit).files.length : Nat) : Int) = 0 := rfl
  simp only [SourceModule.parse, hf, CompilationUnit.addFiles, CompilationUnit.addInput]
  cases hr : t.read file with
  | error e => simp
  | ok text =>
    simp only [CompilationUnit.add, hzero]
    cases ht : Lexer.tokens text 0 with
    | error e => simp [ht]
    | ok ts =>
      simp only [List.nil_append, CompilationUnit.parse]
      cases hp : Frontend.parse prec ts with
      | error e => simp [ht, hp]
      | ok m' => simp [ht, hp]

/-! ### Formatting -/

namespace Command

variable {signals : List (FileTree × Signal)} {c : Console}

lemma run_format_eq_ok {edit : Option Edit} :
    ((run o t signals (.format true path)).runOn c).1 = .ok edit ↔
      ∃ e, ((formatInPlace o t path).runOn c).1 = .ok e ∧ some e = edit := by
  simp only [run, map_eq_pure_bind, bind_eq_ok, pure_eq_ok]

lemma treeAfter_of_formatInPlace {e : Edit} (h : ((formatInPlace o t path).runOn {}).1 = .ok e) :
    treeAfter o t signals (.format true path) = t.write e.path e.content := by
  rw [treeAfter, run_format_eq_ok.2 ⟨e, h, rfl⟩]
  rfl

/-- A module at a path is in order, is shown as some source, and stays as it is when it is formatted
in place. -/
structure Settled (o : Options) (t : FileTree) (path source : Text) : Prop where
  check : ∀ signals, (run o t signals (.check path)).Finishes none []
  format : ∀ signals, (run o t signals (.format false path)).Finishes none source
  unchanged : ∀ signals, treeAfter o t signals (.format true path) = t

/-- A module whose only file holds its source is settled, once this has been written. -/
lemma settled_write (h : Loads o (t.write file m.render) path config p)
    (hm : (p.source.parse (t.write file m.render) p.precedence).2 = .ok m)
    (hf : p.source.files = [file]) : Settled o (t.write file m.render) path m.render where
  check := finishes_check h hm
  format := finishes_format h hm
  unchanged _ := by
    rw [treeAfter_of_formatInPlace (finishes_formatInPlace h hm hf {}).1, FileTree.write_write]

/-- Formatting in place is safe. If it fails, the tree stays as it is. If it succeeds, it has
rewritten the only source file of the module and nothing else, with the text that formatting shows;
and unless this file is the config file as well, the module is settled then and has the same
definitions as before. -/
theorem treeAfter_format (ht : t.WellFormed) :
    (∀ e, ((run o t signals (.format true path)).runOn {}).1 = .error e →
      treeAfter o t signals (.format true path) = t) ∧
    ∀ edit, ((run o t signals (.format true path)).runOn {}).1 = .ok edit →
      ∃ config p file m, Loads o t path config p ∧ p.source.files = [file] ∧
        (p.source.parse t p.precedence).2 = .ok m ∧
        (run o t signals (.format false path)).Finishes none m.render ∧
        t.Rewritten (treeAfter o t signals (.format true path)) file m.render ∧
        (¬t.SameEntry config.path file →
          Settled o (treeAfter o t signals (.format true path)) path m.render ∧
          ∃ m', Loads o (treeAfter o t signals (.format true path)) path config p ∧
            (p.source.parse (treeAfter o t signals (.format true path)) p.precedence).2 = .ok m' ∧
            m'.defs.map Definition.erase = m.defs.map Definition.erase) := by
  constructor
  · intro e he
    rw [treeAfter, he]
  · intro edit hedit
    obtain ⟨⟨file, content⟩, he, -⟩ := run_format_eq_ok.1 hedit
    obtain ⟨config, p, m, hp, hf, hm, rfl⟩ := formatInPlace_eq_ok he
    rw [treeAfter_of_formatInPlace he]
    obtain ⟨text, ts, hr, hts, hparse⟩ := (SourceModule.parse_eq_ok hf).1 hm
    have habs := SourceModule.isAbsolute_of_load ht.absolute hp.source
      (hf ▸ List.mem_singleton_self file)
    -- the text that is written is read back with the same definitions, and printed alike
    have hw := FileTree.rewritten_write ht habs hr m.render
    refine ⟨config, p, file, m, hp, hf, hm, finishes_format hp hm signals, hw, fun hne => ?_⟩
    obtain ⟨ts', m', hts', hparse', hdefs, hrender⟩ := Grammar.exists_parse_of_parse hts hparse
    have hp' := hp.rewritten hw hne
    have hm' := (SourceModule.parse_eq_ok hf).2 ⟨_, ts', hw.read, hts', hparse'⟩
    refine ⟨?_, m', hp', hm', hdefs⟩
    rw [← hrender] at hp' hm' ⊢
    exact settled_write hp' hm' hf

/-- A directory with a config file beside its only source file. -/
theorem treeAfter_format_configured : ∃ t path config p file content,
    t = (({} : FileTree).write
      (Text.ofString "/m/nilla.toml") (Text.ofString "ext = \".n\"\n")).write
      (Text.ofString "/m/a.n") (Text.ofString "def f\n x = 1\n x+2*3\nend") ∧
    path = Text.ofString "m" ∧ t.WellFormed ∧ Loads {} t path config p ∧
    config.path = Text.ofString "m/nilla.toml" ∧ file = Text.ofString "/m/a.n" ∧
    ¬t.SameEntry config.path file ∧
    content = Text.ofString "def f()\n  x = 1\n  (x + (2 * 3))\nend\n" ∧
    t.Rewritten (treeAfter {} t [] (.format true path)) file content ∧
    Settled {} (treeAfter {} t [] (.format true path)) path content := by
  obtain ⟨t, ht⟩ : ∃ t, t =
    (({} : FileTree).write
      (Text.ofString "/m/nilla.toml") (Text.ofString "ext = \".n\"\n")).write
      (Text.ofString "/m/a.n") (Text.ofString "def f\n x = 1\n x+2*3\nend") := ⟨_, rfl⟩
  have hwell : t.WellFormed := ht ▸ (FileTree.wellFormed_empty.write _ _).write _ _
  obtain ⟨config, hconfig, hpath, source, hsource, hfiles, prec, hprec, ts, hts, m, hm, hrender⟩ :
      ∃ config, Options.configFor {} t (Text.ofString "m") = .ok config ∧
        config.path = Text.ofString "m/nilla.toml" ∧
      ∃ source, SourceModule.load t (Text.ofString "m") config.ext = .ok source ∧
        source.files = [Text.ofString "/m/a.n"] ∧
      ∃ prec, config.table = .ok prec ∧
      ∃ ts, Lexer.tokens (Text.ofString "def f\n x = 1\n x+2*3\nend") 0 = .ok ts ∧
      ∃ m, Frontend.parse prec ts = .ok m ∧
        m.render = Text.ofString "def f()\n  x = 1\n  (x + (2 * 3))\nend\n" := by
    subst ht
    exact ⟨_, by cbv, by cbv, _, by cbv, by cbv, _, by cbv, _, by cbv, _, by rfl, by cbv⟩
  have hread : t.read (Text.ofString "/m/a.n") =
      .ok (Text.ofString "def f\n x = 1\n x+2*3\nend") := by
    subst ht
    cbv
  have hne : ¬t.SameEntry config.path (Text.ofString "/m/a.n") := by
    rintro ⟨ns, h, h'⟩
    have hnames : t.names (Text.ofString "m/nilla.toml") ≠ t.names (Text.ofString "/m/a.n") := by
      subst ht
      decide +kernel
    exact hnames (hpath ▸ h.trans h'.symm)
  have hp : Loads {} t (Text.ofString "m") config ⟨prec, source⟩ := ⟨hconfig, hprec, hsource⟩
  have hparse := (SourceModule.parse_eq_ok hfiles).2 ⟨_, ts, hread, hts, hm⟩
  have hrun : ((run {} t [] (.format true (Text.ofString "m"))).runOn {}).1 =
      .ok (some ⟨Text.ofString "/m/a.n", m.render⟩) :=
    run_format_eq_ok.2 ⟨_, (finishes_formatInPlace hp hparse hfiles {}).1, rfl⟩
  -- what the general result finds is what was loaded above
  obtain ⟨config', p', file', m', hp', hf', hm', -, hw, hs⟩ := (treeAfter_format hwell).2 _ hrun
  obtain rfl : config = config' := Except.ok.inj (hconfig.symm.trans hp'.configured)
  obtain rfl : prec = p'.precedence := Except.ok.inj (hprec.symm.trans hp'.table)
  obtain rfl : source = p'.source := Except.ok.inj (hsource.symm.trans hp'.source)
  obtain rfl : Text.ofString "/m/a.n" = file' := by simpa [hfiles] using hf'
  obtain rfl : m = m' := Except.ok.inj (hparse.symm.trans hm')
  rw [hrender] at hw hs
  exact ⟨t, _, config, p', _, _, ht, rfl, hwell, hp', hpath, rfl, hne, rfl, hw, (hs hne).1⟩

end Command

end Frontend
