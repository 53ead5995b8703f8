import Frontend.Proofs.Source.Membership

/-!
# Directories with source files

The search for modules beneath a directory goes through the whole tree below it and finds each
directory with a source file once. A directory is found by the names that lead to it from the root
of the search, and different names make different paths. That the ending is looked for in the path
of a file and not in its name makes no difference, as long as the ending holds no separator.
-/

namespace Frontend

namespace Path

variable {p : Text} {ns ms : List Text}

/-! ### Paths of many names -/

/-- The path that is joined from a path and the relative path of some names. -/
def beneath (p : Text) (ns : List Text) : Text := join p (Text.join root ns)

lemma join_ne_nil (hp : p ≠ []) (n : Text) : join p n ≠ [] := by
  obtain ⟨b, p, rfl⟩ := List.exists_cons_of_ne_nil hp
  cases n with
  | nil => exact clean_ne_nil (b :: p)
  | cons c n => exact clean_ne_nil (b :: p ++ slash :: c :: n)

lemma clean_join (hp : p ≠ []) (n : Text) : clean (join p n) = join p n := by
  obtain ⟨b, p, rfl⟩ := List.exists_cons_of_ne_nil hp
  cases n with
  | nil => exact clean_idem (b :: p)
  | cons c n => exact clean_idem (b :: p ++ slash :: c :: n)

lemma beneath_nil (hne : p ≠ []) (hp : clean p = p) : beneath p [] = p := by
  obtain ⟨b, p, rfl⟩ := List.exists_cons_of_ne_nil hne
  exact hp

/-- Names may be joined to a clean path one after the other. -/
lemma foldl_join (hne : p ≠ []) (hp : clean p = p) (hns : ∀ n ∈ ns, IsName n) :
    ns.foldl join p = beneath p ns := by
  induction ns generalizing p with
  | nil => exact (beneath_nil hne hp).symm
  | cons n ns ih =>
    rw [List.forall_mem_cons] at hns
    rw [List.foldl_cons, ih (join_ne_nil hne n) (clean_join hne n) hns.2]
    cases ns with
    | nil => exact beneath_nil (join_ne_nil hne n) (clean_join hne n)
    | cons m ms =>
      have hrest : Text.join root (m :: ms) ≠ [] := by
        obtain ⟨b, m', hm⟩ := List.exists_cons_of_ne_nil (hns.2 m List.mem_cons_self).ne_nil
        cases ms <;> simp [Text.join, hm]
      have hcons : Text.join root (n :: m :: ms) = n ++ slash :: Text.join root (m :: ms) := by
        rw [Text.join, root, List.append_assoc, List.singleton_append]
      rw [beneath, beneath, join_eq_clean (join_ne_nil hne n) hrest,
        join_eq_clean hne hns.1.ne_nil, clean_clean_append (by simp), List.append_assoc,
        List.cons_append, ← hcons, join_eq_clean hne (by rw [hcons]; simp)]

lemma EndsWithName.foldl_join (h : EndsWithName p) (hp : p ≠ []) (hns : ∀ n ∈ ns, IsName n) :
    EndsWithName (ns.foldl Path.join p) := by
  induction ns generalizing p with
  | nil => exact h
  | cons n ns ih =>
    rw [List.forall_mem_cons] at hns
    exact ih (.join hp hns.1) (join_ne_nil hp n) hns.2

/-- The names that are joined to a path come behind its own. -/
lemma namesFrom_foldl_join (hp : p ≠ []) (hns : ∀ n ∈ ns, IsName n) :
    namesFrom root (ns.foldl join p) = namesFrom root p ++ ns := by
  induction ns generalizing p with
  | nil => exact (List.append_nil _).symm
  | cons n ns ih =>
    rw [List.forall_mem_cons] at hns
    rw [List.foldl_cons, ih (join_ne_nil hp n) hns.2, namesFrom_join rfl hp hns.1,
      List.append_assoc, List.singleton_append]

/-- Different names make different paths. -/
lemma eq_of_foldl_join_eq (hp : p ≠ []) (hns : ∀ n ∈ ns, IsName n) (hms : ∀ m ∈ ms, IsName m)
    (h : ns.foldl join p = ms.foldl join p) : ns = ms := by
  have hnames := congrArg (namesFrom root) h
  rwa [namesFrom_foldl_join hp hns, namesFrom_foldl_join hp hms, List.append_cancel_left_eq]
    at hnames

end Path

namespace FileTree

variable {t : FileTree} {p : Text} {e c : Entry} {ns : List Text}

/-- What is found below an entry has its path with the names joined to it. -/
lemma entry_foldl_join (ht : t.Proper) (h : t.entry p = .ok e) (hf : e.find? ns = some c) :
    t.entry (ns.foldl Path.join p) = .ok c := by
  induction ns generalizing p e with
  | nil =>
    obtain rfl : e = c := Option.some.inj hf
    exact h
  | cons n ns ih =>
    obtain ⟨es, d, rfl, hl, hf⟩ := Entry.find?_cons_eq_some.1 hf
    exact ih (entry_join ht h (Entry.mem_of_lookup hl)) hf

lemma sorted_of_entry (ht : t.Proper) (h : t.entry p = .ok e) : e.Sorted := by
  obtain ⟨ns, -, hf⟩ := entry_eq_ok.1 h
  exact ht.sorted.of_find? hf

lemma named_of_entry (ht : t.Proper) (h : t.entry p = .ok e) : e.Named := by
  obtain ⟨ns, -, hf⟩ := entry_eq_ok.1 h
  exact (ht.named.of_find? hf).2

end FileTree

namespace Entry

variable {c : Text × Entry} {es : List (Text × Entry)}

lemma Sorted.of_directory (h : (Entry.directory es).Sorted) :
    es.Pairwise (fun a b => a.1 < b.1) ∧ ∀ c ∈ es, c.2.Sorted := by
  cases h with
  | directory h hs => exact ⟨h, hs⟩

lemma Sorted.cons (h : (Entry.directory (c :: es)).Sorted) :
    (∀ d ∈ es, c.1 < d.1) ∧ c.2.Sorted ∧ (Entry.directory es).Sorted := by
  obtain ⟨h, hs⟩ := h.of_directory
  obtain ⟨hlt, h⟩ := List.pairwise_cons.1 h
  obtain ⟨hc, hs⟩ := List.forall_mem_cons.1 hs
  exact ⟨hlt, hc, .directory h hs⟩

lemma Named.cons (h : (Entry.directory (c :: es)).Named) :
    ValidName c.1 ∧ c.2.Named ∧ (Entry.directory es).Named := by
  cases h with
  | directory hn hs =>
    obtain ⟨hname, hn⟩ := List.forall_mem_cons.1 hn
    obtain ⟨hc, hs⟩ := List.forall_mem_cons.1 hs
    exact ⟨hname, hc, .directory hn hs⟩

end Entry

namespace SourceModule

variable {t : FileTree} {ext d path : Text} {es : List (Text × Entry)}

/-! ### What the search finds -/

/-- The path of some file in a directory has the ending of source files. -/
def HoldsSource (ext d : Text) (es : List (Text × Entry)) : Prop :=
  ∃ n content, (n, .file content) ∈ es ∧ ext <:+ Path.join d n

lemma mem_own : d ∈ (if es.any fun e => !e.2.isDirectory && ext.isSuffixOf (Path.join path e.1)
    then [path] else []) ↔ d = path ∧ HoldsSource ext d es := by
  rw [List.mem_ite_nil_right, List.mem_singleton, and_comm]
  refine and_congr_right ?_
  rintro rfl
  rw [List.any_eq_true]
  constructor
  · rintro ⟨⟨n, e⟩, hn, hsource⟩
    rw [Bool.and_eq_true, Bool.not_eq_true', List.isSuffixOf_iff_suffix] at hsource
    cases e with
    | file content => exact ⟨n, content, hn, hsource.2⟩
    | directory => cases hsource.1
  · rintro ⟨n, content, hn, hsuffix⟩
    exact ⟨(n, .file content), hn, by simpa [Entry.isDirectory] using hsuffix⟩

mutual

/-- The search finds the directories that hold source files, each under the names that lead to
it. -/
lemma mem_dirsBeneath (path : Text) (e : Entry) (hs : e.Sorted) : d ∈ dirsBeneath ext path e ↔
    ∃ ns es, e.find? ns = some (.directory es) ∧ d = ns.foldl Path.join path ∧
      HoldsSource ext d es := by
  cases e with
  | file content =>
    simp only [dirsBeneath, List.not_mem_nil, false_iff]
    rintro ⟨ns, es, hf, -⟩
    cases ns with
    | nil => cases hf
    | cons n ns =>
      obtain ⟨es, c, ⟨⟩, -⟩ := Entry.find?_cons_eq_some.1 hf
  | directory es =>
    obtain ⟨hsorted, hs⟩ := hs.of_directory
    rw [dirsBeneath, Text.sorted, List.mem_mergeSort, List.mem_append,
      mem_dirsAmong path es hs, mem_own]
    constructor
    · -- the directory itself is found under no name, one below it under that of an entry first
      rintro (⟨n, c, ns, es', hc, hf, hd, hsource⟩ | ⟨hd, hsource⟩)
      · refine ⟨n :: ns, es', ?_, hd, hsource⟩
        exact Entry.find?_cons_eq_some.2 ⟨es, c, rfl, Entry.lookup_of_mem hsorted hc, hf⟩
      · exact ⟨[], es, rfl, hd, hsource⟩
    · rintro ⟨ns, es', hf, hd, hsource⟩
      cases ns with
      | nil =>
        cases hf
        exact .inr ⟨hd, hsource⟩
      | cons n ns =>
        obtain ⟨_, c, ⟨⟩, hl, hf⟩ := Entry.find?_cons_eq_some.1 hf
        exact .inl ⟨n, c, ns, es', Entry.mem_of_lookup hl, hf, hd, hsource⟩

lemma mem_dirsAmong (path : Text) (es : List (Text × Entry)) (hs : ∀ c ∈ es, c.2.Sorted) :
    d ∈ dirsAmong ext path es ↔ ∃ n c ns es', (n, c) ∈ es ∧ c.find? ns = some (.directory es') ∧
      d = ns.foldl Path.join (Path.join path n) ∧ HoldsSource ext d es' := by
  cases es with
  | nil => simp [dirsAmong]
  | cons c es =>
    obtain ⟨n, e⟩ := c
    rw [List.forall_mem_cons] at hs
    rw [dirsAmong, List.mem_append, mem_dirsBeneath _ e hs.1, mem_dirsAmong path es hs.2]
    constructor
    · rintro (⟨ns, es', h⟩ | ⟨m, c, ns, es', hc, h⟩)
      · exact ⟨n, e, ns, es', List.mem_cons_self, h⟩
      · exact ⟨m, c, ns, es', List.mem_cons_of_mem _ hc, h⟩
    · rintro ⟨m, c, ns, es', hc, h⟩
      rcases List.mem_cons.1 hc with hc | hc
      · obtain ⟨rfl, rfl⟩ := Prod.mk.inj hc
        exact .inl ⟨ns, es', h⟩
      · exact .inr ⟨m, c, ns, es', hc, h⟩

end

/-- What is found below a directory has the name of an entry of it behind the path, and perhaps more
names. -/
lemma exists_names_of_mem_dirsAmong (hs : ∀ c ∈ es, c.2.Sorted) (hn : (Entry.directory es).Named)
    (hd : d ∈ dirsAmong ext path es) : ∃ c ∈ es, ∃ ns : List Text,
      (∀ m ∈ c.1 :: ns, Path.IsName m) ∧ d = (c.1 :: ns).foldl Path.join path := by
  obtain ⟨n, c, ns, es', hc, hf, hd, -⟩ := (mem_dirsAmong path es hs).1 hd
  cases hn with
  | directory hvalid hn =>
    refine ⟨(n, c), hc, ns, List.forall_mem_cons.2 ⟨(hvalid _ hc).toIsName, fun m hm => ?_⟩, hd⟩
    exact (((hn _ hc).of_find? hf).1 m hm).toIsName

mutual

/-- In a tree with valid names the search finds no directory twice. -/
lemma nodup_dirsBeneath (ext : Text) {path : Text} (hp : path ≠ []) (e : Entry) (hs : e.Sorted)
    (hn : e.Named) : (dirsBeneath ext path e).Nodup := by
  cases e with
  | file content => simp [dirsBeneath]
  | directory es =>
    rw [dirsBeneath, Text.sorted, (List.mergeSort_perm _ _).nodup_iff]
    refine List.nodup_append'.2 ⟨nodup_dirsAmong ext hp es hs hn, by split_ifs <;> simp, ?_⟩
    -- The path of the directory itself has no names behind it.
    intro d hd hown
    obtain ⟨rfl, -⟩ := mem_own.1 hown
    obtain ⟨c, -, ns, hns, heq⟩ := exists_names_of_mem_dirsAmong hs.of_directory.2 hn hd
    exact List.cons_ne_nil _ _ (Path.eq_of_foldl_join_eq hp hns (by simp) heq.symm)

lemma nodup_dirsAmong (ext : Text) {path : Text} (hp : path ≠ []) (es : List (Text × Entry))
    (hs : (Entry.directory es).Sorted) (hn : (Entry.directory es).Named) :
    (dirsAmong ext path es).Nodup := by
  cases es with
  | nil => simp [dirsAmong]
  | cons c es =>
    obtain ⟨n, e⟩ := c
    obtain ⟨hlt, he, hes⟩ := hs.cons
    obtain ⟨hname, hne, hnes⟩ := hn.cons
    rw [dirsAmong]
    refine List.nodup_append'.2 ⟨nodup_dirsBeneath ext (Path.join_ne_nil hp n) e he hne,
      nodup_dirsAmong ext hp es hes hnes, ?_⟩
    -- Paths below different entries have different names behind the path of the directory.
    intro d hd hd'
    obtain ⟨ns, es', hf, heq, -⟩ := (mem_dirsBeneath _ e he).1 hd
    obtain ⟨c, hc, ms, hms, heq'⟩ := exists_names_of_mem_dirsAmong hes.of_directory.2 hnes hd'
    have hns : ∀ m ∈ n :: ns, Path.IsName m :=
      List.forall_mem_cons.2 ⟨hname.toIsName, fun m hm => ((hne.of_find? hf).1 m hm).toIsName⟩
    have hsame := Path.eq_of_foldl_join_eq hp hns hms (heq.symm.trans heq')
    obtain ⟨rfl, -⟩ := List.cons_eq_cons.1 hsame
    exact List.lt_irrefl _ (hlt c hc)

end

/-! ### Modules -/

section

variable {root : Text} {es₀ : List (Text × Entry)} {ns : List Text} (ht : t.Proper)
  (hclean : Path.clean root = root) (hr : t.entry root = .ok (.directory es₀))
include ht hclean hr

/-- What is found at or beneath a clean path has the path that is joined from it. -/
lemma foldl_join_of_find? {c : Entry} (hf : (Entry.directory es₀).find? ns = some c) :
    ns.foldl Path.join root = Path.beneath root ns := by
  have hvalid := ((FileTree.named_of_entry ht hr).of_find? hf).1
  exact Path.foldl_join (FileTree.ne_nil_of_entry hr) hclean fun n hn => (hvalid n hn).toIsName

lemma mem_dirs_iff (hext : Path.slash ∉ ext) : d ∈ dirsBeneath ext root (.directory es₀) ↔
    ∃ ns es, (Entry.directory es₀).find? ns = some (.directory es) ∧ d = Path.beneath root ns ∧
      ∃ n content, (n, .file content) ∈ es ∧ ext <:+ n := by
  rw [mem_dirsBeneath _ _ (FileTree.sorted_of_entry ht hr)]
  refine exists_congr fun ns => exists_congr fun es => and_congr_right fun hf => ?_
  rw [foldl_join_of_find? ht hclean hr hf]
  refine and_congr_right fun hd => ?_
  have hd' : t.entry d = .ok (.directory es) := by
    rw [hd, ← foldl_join_of_find? ht hclean hr hf]
    exact FileTree.entry_foldl_join ht hr hf
  refine exists_congr fun n => exists_congr fun content => and_congr_right fun hn => ?_
  exact Path.suffix_join_iff (FileTree.ne_nil_of_entry hd')
    (FileTree.validName_of_entry ht hd' _ hn).toIsName hext

/-- Every directory at or beneath a clean path is loaded as a module, with the files in it. -/
lemma exists_ofDirectory_beneath
    (hf : (Entry.directory es₀).find? ns = some (.directory es)) (ext : Text) :
    ∃ m, load t (Path.beneath root ns) ext = .ok m ∧ m.ext = ext ∧ OfDirectory t m es := by
  have hentry : t.entry (Path.beneath root ns) = .ok (.directory es) := by
    rw [← foldl_join_of_find? ht hclean hr hf]
    exact FileTree.entry_foldl_join ht hr hf
  have hname : Path.EndsWithName (Path.beneath root ns) := by
    rw [Path.beneath, ← Path.clean_join (FileTree.ne_nil_of_entry hr)]
    exact Path.endsWithName_clean _
  have hresolved := FileTree.entry_resolve ht hname hentry
  obtain ⟨m, hm⟩ : ∃ m, load t (Path.beneath root ns) ext = .ok m := by
    rw [load, FileTree.stat_eq_ok.2 hresolved]
    exact ⟨_, rfl⟩
  obtain ⟨hpath, hext⟩ := path_of_load hm
  exact ⟨m, hm, hext, ofDirectory_of_load ht hm (hpath ▸ hresolved)⟩

/-- The search finds the directories at or beneath a clean path that directly hold a file with the
ending, in order and each of them once. These are the ones that are loaded as modules with source
files. -/
theorem dirs_exact (hext : Path.slash ∉ ext) :
    ∃ ds, dirs t root ext = .ok ds ∧ ds.Pairwise (· < ·) ∧
      (∀ d, d ∈ ds ↔ ∃ ns es, (Entry.directory es₀).find? ns = some (.directory es) ∧
        d = Path.beneath root ns ∧ ∃ n content, (n, .file content) ∈ es ∧ ext <:+ n) ∧
      ∀ d, d ∈ ds ↔ ∃ ns es m, (Entry.directory es₀).find? ns = some (.directory es) ∧
        d = Path.beneath root ns ∧ load t d ext = .ok m ∧ m.files ≠ [] := by
  have hsorted := FileTree.sorted_of_entry ht hr
  have hnodup := nodup_dirsBeneath ext (FileTree.ne_nil_of_entry hr) _ hsorted
    (FileTree.named_of_entry ht hr)
  have hmem : ∀ d, _ := fun d => mem_dirs_iff (d := d) ht hclean hr hext
  refine ⟨dirsBeneath ext root (.directory es₀), ?_, ?_, hmem, fun d => ?_⟩
  · rw [dirs, FileTree.stat_eq_ok.2 hr]
  · rw [dirsBeneath, Text.sorted, (List.mergeSort_perm _ _).nodup_iff] at hnodup
    exact Text.pairwise_lt_sorted hnodup
  · rw [hmem]
    refine exists_congr fun ns => exists_congr fun es => ?_
    constructor
    · -- a file with the ending is a source file of the module that is loaded
      rintro ⟨hf, rfl, n, content, hn, hsuffix⟩
      obtain ⟨m, hm, hmext, hdir⟩ := exists_ofDirectory_beneath ht hclean hr hf ext
      have hfile := (hdir.mem_files (Path.join m.path n)).2
        ⟨n, content, hn, hmext ▸ hsuffix, rfl⟩
      exact ⟨m, hf, rfl, hm, List.ne_nil_of_mem hfile⟩
    · -- a source file of the module is an entry of the directory
      rintro ⟨m, hf, rfl, hm, hne⟩
      obtain ⟨m', hm', hmext, hdir⟩ := exists_ofDirectory_beneath ht hclean hr hf ext
      obtain rfl : m' = m := Except.ok.inj (hm'.symm.trans hm)
      obtain ⟨f, hf'⟩ := List.exists_mem_of_ne_nil _ hne
      obtain ⟨n, content, hn, hsuffix, -⟩ := (hdir.mem_files f).1 hf'
      exact ⟨hf, rfl, n, content, hn, hmext ▸ hsuffix⟩

end

/-- The directory that the search starts from and one two levels below it hold a source file, and
those in between do not. The search from a relative path finds relative paths. -/
theorem dirs_exact_nested : ∃ t es₀ ds,
    t = (((({ workingDir := Text.ofString "/w" } : FileTree).write (Text.ofString "/w/p/main.n")
      []).write (Text.ofString "/w/p/a/b/x.n") []).write (Text.ofString "/w/p/a/.n/y.m")
      []).write (Text.ofString "/w/p/a.n") [] ∧
    t.Proper ∧ Path.clean (Text.ofString "p") = Text.ofString "p" ∧
    t.entry (Text.ofString "p") = .ok (.directory es₀) ∧
    dirs t (Text.ofString "p") (Text.ofString ".n") = .ok ds ∧
    ds = [Text.ofString "p", Text.ofString "p/a/b"] ∧
    (∃ ns es m, (Entry.directory es₀).find? ns = some (.directory es) ∧
      Text.ofString "p/a/b" = Path.beneath (Text.ofString "p") ns ∧
      load t (Text.ofString "p/a/b") (Text.ofString ".n") = .ok m ∧ m.files ≠ []) ∧
    ∀ ns es, (Entry.directory es₀).find? ns = some (.directory es) →
      Path.beneath (Text.ofString "p") ns = Text.ofString "p/a" →
      ∀ n content, (n, .file content) ∈ es → ¬Text.ofString ".n" <:+ n := by
  obtain ⟨t, ht⟩ : ∃ t, t = (((({ workingDir := Text.ofString "/w" } : FileTree).write
      (Text.ofString "/w/p/main.n") []).write (Text.ofString "/w/p/a/b/x.n") []).write
      (Text.ofString "/w/p/a/.n/y.m") []).write (Text.ofString "/w/p/a.n") [] := ⟨_, rfl⟩
  have hproper : t.Proper := by
    subst ht
    refine .write (.write (.write (.write (FileTree.proper_empty _ rfl rfl) rfl ?_ ?_ _) rfl ?_ ?_
      _) rfl ?_ ?_ _) rfl ?_ ?_ _ <;> decide
  have hclean : Path.clean (Text.ofString "p") = Text.ofString "p" := by decide
  obtain ⟨es₀, hr, hdirs⟩ : ∃ es₀, t.entry (Text.ofString "p") = .ok (.directory es₀) ∧
      dirs t (Text.ofString "p") (Text.ofString ".n") =
        .ok [Text.ofString "p", Text.ofString "p/a/b"] := by
    subst ht
    exact ⟨_, by cbv, by cbv⟩
  have hext : Path.slash ∉ Text.ofString ".n" := by decide
  obtain ⟨ds, hds, -, hholds, hloaded⟩ := dirs_exact hproper hclean hr hext
  obtain rfl := Except.ok.inj (hdirs.symm.trans hds)
  refine ⟨t, es₀, _, ht, hproper, hclean, hr, hds, rfl, (hloaded _).1 (by decide), ?_⟩
  intro ns es hf hpath n content hn hsuffix
  exact absurd ((hholds (Text.ofString "p/a")).2 ⟨ns, es, hf, hpath.symm, n, content, hn, hsuffix⟩)
    (by decide)

end SourceModule

end Frontend
