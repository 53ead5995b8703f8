import Frontend.Proofs.Command.Modules
import Frontend.Proofs.FileTree.Spellings
import Frontend.Proofs.FileTree.Walking

/-!
# Source files of a module

Which files belong to a module is decided twice: when it is loaded, by the names of the entries of
its directory, and for a single path, by the parent of the path and its ending. Both come to the
same for an ending without separators, also when the tree has changed in between: a path is one of
a source file exactly if loading the module again lists it.
-/

namespace Frontend

/-- A sorted list in which nothing is repeated is strictly sorted. -/
lemma Text.pairwise_lt_sorted {ts : List Text} (h : ts.Nodup) :
    (Text.sorted ts).Pairwise (· < ·) := by
  have hnodup : (Text.sorted ts).Nodup := (List.mergeSort_perm _ _).nodup_iff.2 h
  refine (List.pairwise_and_iff.2 ⟨Text.pairwise_sorted ts, hnodup⟩).imp ?_
  rintro a b ⟨hle, hne⟩
  exact Std.lt_of_le_of_ne hle hne

/-! ### Parents -/

namespace Path

variable {p n : Text}

lemma ofNames_cleanElements (ha : isAbsolute p = true) (hp : clean p = p) :
    ofNames (cleanElements p) = p :=
  (clean_of_isAbsolute ha).symm.trans hp

/-- The parent of something in a directory is the directory. -/
lemma dir_join (ha : isAbsolute p = true) (hp : clean p = p) (hn : IsName n) :
    dir (join p n) = p := by
  have hnames := isName_of_mem_cleanElements ha
  rw [← ofNames_cleanElements ha hp, join_ofNames hnames hn, dir_ofNames, List.dropLast_concat]
  intro m hm
  rcases List.mem_append.1 hm with hm | hm
  · exact hnames m hm
  · exact List.mem_singleton.1 hm ▸ hn

end Path

namespace FileTree

variable {t : FileTree} {p : Text} {content : Text}

/-- A file is in the directory that its parent path names. -/
lemma exists_parent (ht : t.Proper) (ha : Path.isAbsolute p = true) (hp : Path.clean p = p)
    (h : t.entry p = .ok (.file content)) : ∃ es n, t.entry (Path.dir p) = .ok (.directory es) ∧
      (n, .file content) ∈ es ∧ p = Path.join (Path.dir p) n := by
  have hnames := Path.isName_of_mem_cleanElements ha
  have hof := Path.ofNames_cleanElements ha hp
  obtain ⟨ns, hn, hf⟩ := entry_eq_ok.1 h
  obtain rfl : ns = Path.cleanElements p := by
    rw [names_eq_namesFrom ht.toWellFormed hn, Path.namesFrom_of_isAbsolute ha]
  generalize Path.cleanElements p = ns at hnames hof hn hf
  rcases List.eq_nil_or_concat' ns with rfl | ⟨ms, n, rfl⟩
  · obtain hroot : t.root = .file content := Option.some.inj hf
    exact absurd ht.directory (by simp [hroot, Entry.isDirectory])
  · have hms : ∀ m ∈ ms, Path.IsName m := fun m hm => hnames m (List.mem_append_left _ hm)
    have hdir : Path.dir p = Path.ofNames ms := by
      rw [← hof, Path.dir_ofNames hnames, List.dropLast_concat]
    obtain ⟨d, hd, hchild⟩ : ∃ d, t.root.find? ms = some d ∧
        d.find? [n] = some (.file content) := by
      rwa [Entry.find?_append, Option.bind_eq_some_iff] at hf
    obtain ⟨es, c, rfl, hl, hfound⟩ := Entry.find?_cons_eq_some.1 hchild
    obtain rfl : c = .file content := Option.some.inj hfound
    refine ⟨es, n, ?_, Entry.mem_of_lookup hl, ?_⟩
    · rw [hdir]
      exact entry_eq_ok.2 ⟨ms, names_ofNames ht hd, hd⟩
    · rw [hdir, Path.join_ofNames hms (hnames n (by simp)), hof]

end FileTree

namespace SourceModule

variable {t t' : FileTree} {path ext dir f p content : Text} {es : List (Text × Entry)}
  {m m' : SourceModule}

/-! ### Files of a directory -/

lemma mem_sourcesIn : f ∈ sourcesIn dir ext es ↔
    ∃ n content, (n, .file content) ∈ es ∧ ext <:+ n ∧ f = Path.join dir n := by
  simp only [sourcesIn, Text.sorted, List.mem_mergeSort, List.mem_map, List.mem_filter,
    Bool.and_eq_true, Bool.not_eq_true', List.isSuffixOf_iff_suffix]
  constructor
  · rintro ⟨⟨n, e⟩, ⟨he, hfile, hn⟩, rfl⟩
    cases e with
    | file content => exact ⟨n, content, he, hn, rfl⟩
    | directory => cases hfile
  · rintro ⟨n, content, he, hn, rfl⟩
    exact ⟨(n, .file content), ⟨he, rfl, hn⟩, rfl⟩

/-- What is in a module whose path names a directory. -/
lemma load_of_directory
    (hd : t.entry (Path.resolve t.workingDir path) = .ok (.directory es))
    (h : load t path ext = .ok m) :
    m.dir = Path.resolve t.workingDir path ∧ m.files = sourcesIn m.dir ext es := by
  rw [load, FileTree.stat_eq_ok.2 hd] at h
  obtain rfl := Except.ok.inj h
  exact ⟨rfl, rfl⟩

section

variable (ht : t.Proper) (h : t.entry dir = .ok (.directory es))
include ht h

lemma eq_of_join_eq {c c' : Text × Entry} (hc : c ∈ es) (hc' : c' ∈ es)
    (hjoin : Path.join dir c.1 = Path.join dir c'.1) : c.1 = c'.1 :=
  Path.eq_of_join_eq (FileTree.ne_nil_of_entry h) (FileTree.validName_of_entry ht h c hc).toIsName
    (FileTree.validName_of_entry ht h c' hc').toIsName hjoin

/-- A file in a directory is a source file if its name has the ending. -/
lemma join_mem_sourcesIn {n content : Text} (hn : (n, .file content) ∈ es) :
    Path.join dir n ∈ sourcesIn dir ext es ↔ ext <:+ n := by
  rw [mem_sourcesIn]
  constructor
  · rintro ⟨m, content', hm, hsource, hjoin⟩
    rwa [show n = m from eq_of_join_eq ht h hn hm hjoin]
  · exact fun hsource => ⟨n, content, hn, hsource, rfl⟩

/-- The source files in a directory are in order, and each is there once. -/
lemma pairwise_sourcesIn : (sourcesIn dir ext es).Pairwise (· < ·) := by
  rw [sourcesIn]
  apply Text.pairwise_lt_sorted
  rw [List.Nodup, List.pairwise_map]
  have hfiltered := (FileTree.pairwise_of_entry ht h).filter fun e =>
    !e.2.isDirectory && ext.isSuffixOf e.1
  refine hfiltered.imp_of_mem fun ha hb hlt hjoin => ?_
  rw [eq_of_join_eq ht h (List.mem_filter.1 ha).1 (List.mem_filter.1 hb).1 hjoin] at hlt
  exact List.lt_irrefl _ hlt

end

/-! ### What is loaded -/

/-- A module of a directory: its files are the files directly in it whose names have the ending. -/
structure OfDirectory (t : FileTree) (m : SourceModule) (es : List (Text × Entry)) : Prop where
  entry : t.entry m.path = .ok (.directory es)
  dir_eq : m.dir = m.path
  ordered : m.files.Pairwise (· < ·)
  mem_files : ∀ f, f ∈ m.files ↔
    ∃ n content, (n, .file content) ∈ es ∧ m.ext <:+ n ∧ f = Path.join m.path n

/-- A module of a single file: its directory is the one that the file is in. -/
structure OfFile (t : FileTree) (m : SourceModule) (content : Text) : Prop where
  entry : t.entry m.path = .ok (.file content)
  files_eq : m.files = [m.path]
  dir_eq : m.dir = Path.dir m.path
  parent : ∃ es n, t.entry m.dir = .ok (.directory es) ∧ (n, .file content) ∈ es ∧
    m.path = Path.join m.dir n

section

variable (ht : t.Proper) (h : load t path ext = .ok m)
include ht h

lemma isAbsolute_path_of_load : Path.isAbsolute m.path = true := by
  rw [(path_of_load h).1]
  exact Path.isAbsolute_resolve ht.absolute path

lemma clean_path_of_load : Path.clean m.path = m.path := by
  rw [(path_of_load h).1]
  exact Path.clean_resolve ht.absolute ht.clean path

lemma ofDirectory_of_load (hd : t.entry m.path = .ok (.directory es)) : OfDirectory t m es := by
  obtain ⟨hpath, hext⟩ := path_of_load h
  obtain ⟨hdir, hfiles⟩ := load_of_directory (hpath ▸ hd) h
  rw [← hpath] at hdir
  rw [hdir] at hfiles
  refine ⟨hd, hdir, ?_, fun f => ?_⟩
  · rw [hfiles]
    exact pairwise_sourcesIn ht hd
  · rw [hfiles, mem_sourcesIn, hext]

lemma ofFile_of_load (hf : t.entry m.path = .ok (.file content)) : OfFile t m content := by
  have hpath := (path_of_load h).1
  have ha := isAbsolute_path_of_load ht h
  have hclean := clean_path_of_load ht h
  obtain ⟨hdir, hfiles⟩ : m.dir = Path.dir m.path ∧ m.files = [m.path] := by
    rw [load, FileTree.stat_eq_ok.2 (hpath ▸ hf)] at h
    obtain rfl := Except.ok.inj h
    exact ⟨rfl, rfl⟩
  refine ⟨hf, hfiles, hdir, ?_⟩
  rw [hdir]
  exact FileTree.exists_parent ht ha hclean hf

lemma exists_of_load : (∃ es, OfDirectory t m es) ∨ ∃ content, OfFile t m content := by
  have hpath := (path_of_load h).1
  cases hs : t.stat m.path with
  | error e =>
    rw [load, ← hpath, hs] at h
    cases h
  | ok c =>
    have hc := FileTree.stat_eq_ok.1 hs
    cases c with
    | directory es => exact .inl ⟨es, ofDirectory_of_load ht h hc⟩
    | file content => exact .inr ⟨content, ofFile_of_load ht h hc⟩

end

/-! ### Paths of source files -/

lemma OfFile.dir_ne (h : OfFile t m content) : m.path ≠ m.dir := by
  intro hdir
  obtain ⟨es, n, hes, -⟩ := h.parent
  exact absurd ((hdir ▸ h.entry).symm.trans hes) (by simp)

/-- The path of a single file is the only one of its module. -/
lemma OfFile.isSource_iff (h : OfFile t m content) (hclean : Path.clean p = p) :
    m.isSource p = true ↔ p = m.path := by
  rw [isSource, if_neg h.dir_ne, decide_eq_true_eq, hclean]

/-- The path of a file has the directory and the ending of a module exactly if the file is listed
there. -/
lemma OfDirectory.isSource_iff (h : OfDirectory t m es) (ht : t.Proper)
    (ha : Path.isAbsolute m.path = true) (hm : Path.clean m.path = m.path)
    (hext : Path.slash ∉ m.ext) (hp : Path.isAbsolute p = true) (hclean : Path.clean p = p)
    (he : t.entry p = .ok (.file content)) : m.isSource p = true ↔ p ∈ m.files := by
  have hne := FileTree.ne_nil_of_entry h.entry
  have hname : ∀ n content, (n, .file content) ∈ es → Path.IsName n :=
    fun n content hn => (FileTree.validName_of_entry ht h.entry (n, .file content) hn).toIsName
  rw [isSource, if_pos h.dir_eq.symm, Bool.and_eq_true, decide_eq_true_eq,
    List.isSuffixOf_iff_suffix, hclean, h.dir_eq, h.mem_files]
  constructor
  · rintro ⟨hparent, hsuffix⟩
    obtain ⟨es', n, hes', hn, hjoin⟩ := FileTree.exists_parent ht hp hclean he
    rw [hparent] at hes' hjoin
    obtain rfl : es' = es := by simpa using hes'.symm.trans h.entry
    rw [hjoin, Path.suffix_join_iff hne (hname n content hn) hext] at hsuffix
    exact ⟨n, content, hn, hsuffix, hjoin⟩
  · rintro ⟨n, content', hn, hsuffix, rfl⟩
    have hn' := hname n content' hn
    exact ⟨Path.dir_join ha hm hn', (Path.suffix_join_iff hne hn' hext).2 hsuffix⟩

/-- Whether a path is one of a source file depends on three fields of a module. -/
lemma isSource_congr (hpath : m'.path = m.path) (hdir : m'.dir = m.dir) (hext : m'.ext = m.ext)
    (p : Text) : m'.isSource p = m.isSource p := by
  rw [isSource, isSource, hpath, hdir, hext]

/-- A module of which the path still names a file or a directory, as it did, is loaded again from
this path, with the same directory. -/
lemma exists_reload (ht : t.Proper) (ht' : t'.Proper) (h : load t path ext = .ok m) {c c' : Entry}
    (hc : t.entry m.path = .ok c) (hc' : t'.entry m.path = .ok c')
    (hkind : c'.isDirectory = c.isDirectory) : ∃ m', load t' m.path m.ext = .ok m' ∧
      m'.path = m.path ∧ m'.ext = m.ext ∧ m'.dir = m.dir := by
  have hresolve := Path.resolve_of_clean (isAbsolute_path_of_load ht h) (clean_path_of_load ht h)
    t'.workingDir
  obtain ⟨m', hm'⟩ : ∃ m', load t' m.path m.ext = .ok m' := by
    rw [load, hresolve, FileTree.stat_eq_ok.2 hc']
    cases c' <;> exact ⟨_, rfl⟩
  obtain ⟨hpath, hext⟩ := path_of_load hm'
  rw [hresolve] at hpath
  refine ⟨m', hm', hpath, hext, ?_⟩
  rw [← hpath] at hc'
  cases c with
  | directory es =>
    cases c' with
    | file content => cases hkind
    | directory es' =>
      rw [(ofDirectory_of_load ht' hm' hc').dir_eq, (ofDirectory_of_load ht h hc).dir_eq, hpath]
  | file content =>
    cases c' with
    | directory es' => cases hkind
    | file content' =>
      rw [(ofFile_of_load ht' hm' hc').dir_eq, (ofFile_of_load ht h hc).dir_eq, hpath]

/-- Loading a module and asking for a single path agree on which files are source files. A module is
one of a directory or of a single file, as its path says, and so does the path that it was loaded
from, unless this ends with a separator. As long as its path names a file or a directory, as it
did, the path of a file is one of a source file exactly if the module lists it when it is loaded
again. -/
theorem load_agrees_isSource (ht : t.Proper) (hslash : Path.slash ∉ ext)
    (h : load t path ext = .ok m) :
    m.ext = ext ∧
    ((∃ es, OfDirectory t m es) ∨ ∃ content, OfFile t m content) ∧
    (Path.EndsWithName path →
      (∀ es, t.entry path = .ok (.directory es) → OfDirectory t m es) ∧
      ∀ content, t.entry path = .ok (.file content) → OfFile t m content) ∧
    ∀ t' c c', t'.Proper → t.entry m.path = .ok c → t'.entry m.path = .ok c' →
      c'.isDirectory = c.isDirectory → ∃ m', load t' m.path m.ext = .ok m' ∧
        ∀ p content, Path.isAbsolute p = true → Path.clean p = p →
          t'.entry p = .ok (.file content) → (m.isSource p = true ↔ p ∈ m'.files) := by
  obtain ⟨hpath, hext⟩ := path_of_load h
  refine ⟨hext, exists_of_load ht h, fun hname => ⟨fun es hes => ?_, fun content hf => ?_⟩, ?_⟩
  · exact ofDirectory_of_load ht h (hpath ▸ FileTree.entry_resolve ht hname hes)
  · exact ofFile_of_load ht h (hpath ▸ FileTree.entry_resolve ht hname hf)
  · intro t' c c' ht' hc hc' hkind
    obtain ⟨m', hm', hpath', hext', hdir'⟩ := exists_reload ht ht' h hc hc' hkind
    refine ⟨m', hm', fun p content hp hclean hf => ?_⟩
    rw [← isSource_congr hpath' hdir' hext']
    rcases exists_of_load ht' hm' with ⟨es, hes⟩ | ⟨content', hfile⟩
    · exact hes.isSource_iff ht' (isAbsolute_path_of_load ht' hm') (clean_path_of_load ht' hm')
        (by rwa [hext', hext]) hp hclean hf
    · rw [hfile.isSource_iff hclean, hfile.files_eq, List.mem_singleton]

/-- A file that is added to the directory of a module, beside one with another ending and one in a
directory below. -/
theorem load_agrees_isSource_added : ∃ t t' m m' es,
    t = ((({ workingDir := Text.ofString "/w" } : FileTree).write (Text.ofString "/w/a/x.n")
      (Text.ofString "def f\n 1\nend\n")).write (Text.ofString "/w/a/y.m") []).write
      (Text.ofString "/w/a/b/z.n") [] ∧
    t' = t.write (Text.ofString "/w/a/c.n") [] ∧ t.Proper ∧ t'.Proper ∧
    load t (Text.ofString "a") (Text.ofString ".n") = .ok m ∧ OfDirectory t m es ∧
    m.files = [Text.ofString "/w/a/x.n"] ∧ load t' m.path m.ext = .ok m' ∧
    (∀ p ∈ [Text.ofString "/w/a/c.n", Text.ofString "/w/a/y.m", Text.ofString "/w/a/b/z.n"],
      m.isSource p = true ↔ p ∈ m'.files) ∧ m.isSource (Text.ofString "/w/a/c.n") = true := by
  obtain ⟨t, ht⟩ : ∃ t, t = ((({ workingDir := Text.ofString "/w" } : FileTree).write
      (Text.ofString "/w/a/x.n") (Text.ofString "def f\n 1\nend\n")).write
      (Text.ofString "/w/a/y.m") []).write (Text.ofString "/w/a/b/z.n") [] := ⟨_, rfl⟩
  obtain ⟨t', ht'⟩ : ∃ t', t' = t.write (Text.ofString "/w/a/c.n") [] := ⟨_, rfl⟩
  have hproper : t.Proper := by
    subst ht
    refine .write (.write (.write (FileTree.proper_empty _ rfl rfl) rfl ?_ ?_ _) rfl ?_ ?_ _)
      rfl ?_ ?_ _ <;> decide
  have hproper' : t'.Proper := by
    subst ht'
    exact hproper.write rfl (by decide) (by decide) _
  obtain ⟨m, hm, hpath, hfiles, hsource, es, hes, hes'⟩ : ∃ m,
      load t (Text.ofString "a") (Text.ofString ".n") = .ok m ∧ m.path = Text.ofString "/w/a" ∧
      m.files = [Text.ofString "/w/a/x.n"] ∧ m.isSource (Text.ofString "/w/a/c.n") = true ∧
      ∃ es, t.entry (Text.ofString "a") = .ok (.directory es) ∧
        t.entry (Text.ofString "/w/a") = .ok (.directory es) := by
    subst ht
    exact ⟨_, by cbv, by cbv, by cbv, by cbv, _, by cbv, by cbv⟩
  -- the three paths are looked up in the tree with the new file
  obtain ⟨es', hnew, content, hc, content', hy, content'', hz⟩ : ∃ es',
      t'.entry (Text.ofString "/w/a") = .ok (.directory es') ∧
      ∃ content, t'.entry (Text.ofString "/w/a/c.n") = .ok (.file content) ∧
      ∃ content', t'.entry (Text.ofString "/w/a/y.m") = .ok (.file content') ∧
      ∃ content'', t'.entry (Text.ofString "/w/a/b/z.n") = .ok (.file content'') := by
    subst ht' ht
    exact ⟨_, by cbv, _, by cbv, _, by cbv, _, by cbv⟩
  obtain ⟨-, -, hkind, hlater⟩ := load_agrees_isSource hproper (by decide) hm
  obtain ⟨m', hm', hagree⟩ := hlater t' (.directory es) (.directory es') hproper'
    (hpath ▸ hes') (hpath ▸ hnew) rfl
  refine ⟨t, t', m, m', es, ht, ht', hproper, hproper', hm, (hkind (.inr (by decide))).1 es hes,
    hfiles, hm', ?_, hsource⟩
  simp only [List.forall_mem_cons, List.not_mem_nil, false_imp_iff, implies_true, and_true]
  exact ⟨hagree _ _ rfl rfl hc, hagree _ _ rfl rfl hy, hagree _ _ rfl rfl hz⟩

/-- The path of a directory with a separator at its end is loaded as the file of the same name in
the directory, if there is one: the module is not one of the directory. -/
theorem load_of_separator_file : ∃ t es m content,
    t = (({ workingDir := Text.ofString "/w" } : FileTree).write (Text.ofString "/w/a/x.n")
      (Text.ofString "def f\n 1\nend\n")).write (Text.ofString "/w/a/a") content ∧ t.Proper ∧
    t.entry (Text.ofString "a/") = .ok (.directory es) ∧
    load t (Text.ofString "a/") (Text.ofString ".n") = .ok m ∧ ¬OfDirectory t m es ∧
    m.dir = Text.ofString "/w/a" ∧ m.files = [Text.ofString "/w/a/a"] := by
  obtain ⟨t, ht⟩ : ∃ t, t = (({ workingDir := Text.ofString "/w" } : FileTree).write
      (Text.ofString "/w/a/x.n") (Text.ofString "def f\n 1\nend\n")).write
      (Text.ofString "/w/a/a") [] := ⟨_, rfl⟩
  have hproper : t.Proper := by
    subst ht
    exact ((FileTree.proper_empty _ rfl rfl).write rfl (by decide) (by decide) _).write rfl
      (by decide) (by decide) _
  obtain ⟨es, m, hes, hm, hpath, hdir, hfiles⟩ : ∃ es m,
      t.entry (Text.ofString "a/") = .ok (.directory es) ∧
      load t (Text.ofString "a/") (Text.ofString ".n") = .ok m ∧
      m.path = Text.ofString "/w/a/a" ∧ m.dir = Text.ofString "/w/a" ∧
      m.files = [Text.ofString "/w/a/a"] := by
    subst ht
    exact ⟨_, _, by cbv, by cbv, by cbv, by cbv, by cbv⟩
  refine ⟨t, es, m, [], ht, hproper, hes, hm, fun h => ?_, hdir, hfiles⟩
  have hne := h.dir_eq
  rw [hdir, hpath] at hne
  exact absurd hne (by decide)

end SourceModule

end Frontend
