import Frontend.Proofs.FileTree.Resolution
import Frontend.Proofs.FileTree.Rewriting

/-!
# Walking along paths

As there are no links in a tree, taking back an element of a path leads to where the walk came from.
What a path names does therefore not change when the path is cleaned or resolved, and what a
directory holds is named by the path of the directory with the name of the entry behind it.
-/

namespace Frontend

/-! ### Trees with names -/

namespace Entry

/-- A name that an entry of a directory can have. -/
structure ValidName (n : Text) : Prop extends Path.IsName n where
  length_le : n.length ≤ FileTree.maxNameLength
  zero_not_mem : 0 ∉ n

instance (n : Text) : Decidable (ValidName n) :=
  decidable_of_iff ((n ≠ [] ∧ n ≠ Path.dot ∧ n ≠ Path.dotDot ∧ Path.slash ∉ n) ∧
    n.length ≤ FileTree.maxNameLength ∧ 0 ∉ n) <| by
    constructor
    · rintro ⟨⟨hnil, hdot, hup, hslash⟩, hlength, hzero⟩
      exact ⟨⟨hnil, hdot, hup, hslash⟩, hlength, hzero⟩
    · rintro ⟨⟨hnil, hdot, hup, hslash⟩, hlength, hzero⟩
      exact ⟨⟨hnil, hdot, hup, hslash⟩, hlength, hzero⟩

/-- Every entry of a directory in a tree has a valid name. -/
inductive Named : Entry → Prop
  | file (content : Text) : Named (.file content)
  | directory {es : List (Text × Entry)} (hn : ∀ c ∈ es, ValidName c.1)
      (hs : ∀ c ∈ es, Named c.2) : Named (.directory es)

variable {e c : Entry} {n : Text} {ns ms : List Text}

lemma child?_eq_some : e.child? n = some c ↔ ∃ es, e = .directory es ∧ es.lookup n = some c := by
  cases e with
  | file => simp [child?, entries]
  | directory es => simp [child?, entries]

lemma Named.child (h : e.Named) (hc : e.child? n = some c) : ValidName n ∧ c.Named := by
  obtain ⟨es, rfl, hl⟩ := child?_eq_some.1 hc
  cases h with
  | directory hn hs => exact ⟨hn _ (mem_of_lookup hl), hs _ (mem_of_lookup hl)⟩

lemma find?_append (e : Entry) (ns ms : List Text) :
    e.find? (ns ++ ms) = (e.find? ns).bind (·.find? ms) := by
  induction ns generalizing e with
  | nil => rfl
  | cons n ns ih =>
    rw [List.cons_append, find?, find?]
    cases e.child? n with
    | none => rfl
    | some c => exact ih c

lemma find?_cons_eq_some : e.find? (n :: ns) = some c ↔
    ∃ es d, e = .directory es ∧ es.lookup n = some d ∧ d.find? ns = some c := by
  rw [find?]
  cases hd : e.child? n with
  | none =>
    refine ⟨fun h => (by cases h), ?_⟩
    rintro ⟨es, d, rfl, hl, -⟩
    rw [child?_eq_some.2 ⟨es, rfl, hl⟩] at hd
    cases hd
  | some d =>
    obtain ⟨es, rfl, hl⟩ := child?_eq_some.1 hd
    refine ⟨fun h => ⟨es, d, rfl, hl, h⟩, ?_⟩
    rintro ⟨_, d', ⟨⟩, hl', h⟩
    obtain rfl := Option.some.inj (hl.symm.trans hl')
    exact h

/-- What is found in a tree is so named as well, and by valid names. -/
lemma Named.of_find? (h : e.Named) (hf : e.find? ns = some c) :
    (∀ n ∈ ns, ValidName n) ∧ c.Named := by
  induction ns generalizing e with
  | nil =>
    obtain rfl : e = c := Option.some.inj hf
    exact ⟨by simp, h⟩
  | cons n ns ih =>
    rw [find?] at hf
    cases hd : e.child? n with
    | none => simp [hd] at hf
    | some d =>
      rw [hd] at hf
      obtain ⟨hn, hd⟩ := h.child hd
      exact (ih hd hf).imp_left fun hns => List.forall_mem_cons.2 ⟨hn, hns⟩

lemma Sorted.of_find? (h : e.Sorted) (hf : e.find? ns = some c) : c.Sorted := by
  induction ns generalizing e with
  | nil =>
    obtain rfl : e = c := Option.some.inj hf
    exact h
  | cons n ns ih =>
    rw [find?] at hf
    cases hd : e.child? n with
    | none => simp [hd] at hf
    | some d =>
      rw [hd] at hf
      exact ih (h.child hd) hf

lemma Named.insertEntry {new : Entry} (h : e.Named) (hn : ValidName n) (hnew : new.Named) :
    (Entry.directory (insertEntry n new e.entries)).Named := by
  have hentries : ∀ c ∈ e.entries, ValidName c.1 ∧ c.2.Named := by
    cases h with
    | file => simp [entries]
    | directory hn hs => exact fun c hc => ⟨hn c hc, hs c hc⟩
  refine .directory (fun c hc => ?_) fun c hc => ?_
  · rcases mem_insertEntry hc with rfl | hc
    · exact hn
    · exact (hentries c hc).1
  · rcases mem_insertEntry hc with rfl | hc
    · exact hnew
    · exact (hentries c hc).2

lemma Named.put {new : Entry} (h : e.Named) (hns : ∀ n ∈ ns, ValidName n) (hnew : new.Named) :
    (e.put ns new).Named := by
  induction ns generalizing e with
  | nil => exact hnew
  | cons n ns ih =>
    rw [List.forall_mem_cons] at hns
    have hchild : ((e.child? n).getD (.directory [])).Named := by
      cases hc : e.child? n with
      | none => exact .directory (by simp) (by simp)
      | some c => exact (h.child hc).2
    exact h.insertEntry hns.1 (ih hchild hns.2)

lemma lookup_of_mem {es : List (Text × Entry)} (hs : es.Pairwise fun a b => a.1 < b.1)
    (h : (n, c) ∈ es) : es.lookup n = some c := by
  obtain ⟨before, after, rfl⟩ := List.append_of_mem h
  refine List.lookup_eq_some_iff.2 ⟨before, after, rfl, fun d hd => ?_⟩
  have hlt : d.1 < n := (List.pairwise_append.1 hs).2.2 d hd (n, c) List.mem_cons_self
  rw [bne_iff_ne]
  rintro rfl
  exact List.lt_irrefl _ hlt

end Entry

namespace FileTree

variable {t : FileTree} {root : Entry} {p n : Text} {here start r es es' ns stack : List Text}

/-- A tree as a file system has it: the root is a directory, all names are valid, and the path of
the working directory is clean. -/
structure Proper (t : FileTree) : Prop extends t.WellFormed where
  directory : t.root.isDirectory = true
  named : t.root.Named
  clean : Path.clean t.workingDir = t.workingDir

lemma proper_empty (workingDir : Text) (h : Path.isAbsolute workingDir = true)
    (hclean : Path.clean workingDir = workingDir) : ({ workingDir } : FileTree).Proper where
  sorted := .directory .nil (by simp)
  absolute := h
  directory := rfl
  named := .directory (by simp) (by simp)
  clean := hclean

lemma Proper.write (ht : t.Proper) (hp : Path.isAbsolute p = true)
    (hnil : Path.cleanElements p ≠ []) (hns : ∀ n ∈ Path.cleanElements p, Entry.ValidName n)
    (content : Text) : (t.write p content).Proper where
  toWellFormed := ht.toWellFormed.write p content
  directory := by
    rw [FileTree.write, if_pos hp]
    cases hes : Path.cleanElements p with
    | nil => exact absurd hes hnil
    | cons n ns => rfl
  named := by
    rw [FileTree.write, if_pos hp]
    exact ht.named.put hns (.file content)
  clean := ht.clean

/-! ### Walking -/

/-- What an element of a path leads to from a directory, both given by names, last first. -/
inductive Leads (root : Entry) (here : List Text) : Text → List Text → Prop
  | stay {es : List (Text × Entry)} {e : Text} (hd : root.find? here.reverse = some (.directory es))
      (he : e = [] ∨ e = Path.dot) : Leads root here e here
  | up {es : List (Text × Entry)} (hd : root.find? here.reverse = some (.directory es)) :
      Leads root here Path.dotDot here.tail
  | down {es : List (Text × Entry)} {n : Text} {c : Entry}
      (hd : root.find? here.reverse = some (.directory es)) (hskip : ¬(n = [] ∨ n = Path.dot))
      (hup : n ≠ Path.dotDot) (hlength : n.length ≤ maxNameLength) (hl : es.lookup n = some c) :
      Leads root here n (n :: here)

lemma walk_cons : walk root here (n :: es) = .ok r ↔
    ∃ mid, Leads root here n mid ∧ walk root mid es = .ok r := by
  constructor
  · intro h
    rw [walk] at h
    split at h
    case h_1 => cases h
    case h_2 => cases h
    case h_3 children hd =>
      by_cases hskip : n = [] ∨ n = Path.dot
      · rw [if_pos hskip] at h
        exact ⟨here, .stay hd hskip, h⟩
      by_cases hup : n = Path.dotDot
      · subst hup
        exact ⟨here.tail, .up hd, by simpa [hskip] using h⟩
      rw [if_neg hskip, if_neg hup] at h
      split_ifs at h with hlength
      cases hl : children.lookup n with
      | none => simp [hl] at h
      | some c =>
        simp only [hl] at h
        exact ⟨n :: here, .down hd hskip hup (Nat.le_of_not_lt hlength) hl, h⟩
  · rintro ⟨mid, hn, h⟩
    rw [walk]
    cases hn with
    | stay hd he => simpa only [hd, if_pos he] using h
    | up hd =>
      have hskip : ¬(Path.dotDot = [] ∨ Path.dotDot = Path.dot) := by decide
      simpa only [hd, if_neg hskip, if_true] using h
    | down hd hskip hup hlength hl =>
      simpa only [hd, if_neg hskip, if_neg hup, if_neg (Nat.not_lt.2 hlength), hl] using h

lemma walk_append : walk root here (es ++ es') = .ok r ↔
    ∃ mid, walk root here es = .ok mid ∧ walk root mid es' = .ok r := by
  induction es generalizing here with
  | nil =>
    refine ⟨fun h => ⟨here, rfl, h⟩, ?_⟩
    rintro ⟨mid, h, h'⟩
    obtain rfl : here = mid := Except.ok.inj h
    exact h'
  | cons e es ih =>
    rw [List.cons_append, walk_cons]
    constructor
    · rintro ⟨next, hn, h⟩
      obtain ⟨mid, hmid, h'⟩ := ih.1 h
      exact ⟨mid, walk_cons.2 ⟨next, hn, hmid⟩, h'⟩
    · rintro ⟨mid, hmid, h'⟩
      obtain ⟨next, hn, h⟩ := walk_cons.1 hmid
      exact ⟨next, hn, ih.2 ⟨mid, h, h'⟩⟩

lemma Leads.walk (h : Leads root here n r) : FileTree.walk root here [n] = .ok r :=
  walk_cons.2 ⟨r, h, rfl⟩

lemma Leads.exists_directory (h : Leads root here n r) :
    ∃ es, root.find? here.reverse = some (.directory es) := by
  cases h with
  | stay hd _ => exact ⟨_, hd⟩
  | up hd => exact ⟨_, hd⟩
  | down hd _ _ _ _ => exact ⟨_, hd⟩

/-- A name leads to a place behind the one that it was taken from. -/
lemma Leads.tail_eq (h : Leads root here n r) (hskip : ¬(n = [] ∨ n = Path.dot))
    (hup : n ≠ Path.dotDot) : r.tail = here := by
  cases h with
  | stay _ he => exact absurd he hskip
  | up => exact absurd rfl hup
  | down => rfl

lemma walk_dropped {ds : List (Text × Entry)} (hd : root.find? here.reverse = some (.directory ds))
    (hes : ∀ e ∈ es, e = [] ∨ e = Path.dot) : walk root here es = .ok here := by
  induction es with
  | nil => rfl
  | cons e es ih =>
    rw [List.forall_mem_cons] at hes
    exact walk_cons.2 ⟨here, .stay hd hes.1, ih hes.2⟩

/-- The names that lead to an entry can be walked. -/
lemma walk_of_find? {e : Entry} (hns : ∀ m ∈ ns, Entry.ValidName m)
    (h : root.find? (here.reverse ++ ns) = some e) :
    walk root here ns = .ok (ns.reverse ++ here) := by
  induction ns generalizing here with
  | nil => rfl
  | cons n ns ih =>
    rw [List.forall_mem_cons] at hns
    obtain ⟨hn, hns⟩ := hns
    obtain ⟨d, hd, hfind⟩ : ∃ d, root.find? here.reverse = some d ∧ d.find? (n :: ns) = some e := by
      rwa [Entry.find?_append, Option.bind_eq_some_iff] at h
    obtain ⟨c, hc⟩ : ∃ c, d.child? n = some c := by
      rw [Entry.find?] at hfind
      cases hc : d.child? n with
      | none => simp [hc] at hfind
      | some c => exact ⟨c, rfl⟩
    obtain ⟨es, rfl, hl⟩ := Entry.child?_eq_some.1 hc
    rw [walk_cons]
    refine ⟨n :: here, ?_, ?_⟩
    · exact .down hd (not_or.2 ⟨hn.ne_nil, hn.ne_dot⟩) hn.ne_dotDot hn.length_le hl
    · rw [ih hns (by simpa using h)]
      simp

/-- Walking along what is kept of some elements leads to where the elements lead: an element that
is taken back was the last step. -/
lemma walk_foldl_push {absolute : Bool} (hstart : absolute = true → start = [])
    (hkept : Path.Kept stack) (hstack : walk root start stack.reverse = .ok here)
    (h : walk root here es = .ok r) :
    walk root start (es.foldl (Path.push absolute) stack).reverse = .ok r := by
  induction es generalizing stack here with
  | nil => exact hstack.trans h
  | cons e es ih =>
    obtain ⟨mid, he, h⟩ := walk_cons.1 h
    refine ih (hkept.push absolute e) ?_ h
    rw [Path.push.eq_def]
    cases he with
    | stay hd hskip => rwa [if_pos hskip]
    | down hd hskip hup hlength hl =>
      rw [if_neg hskip, if_neg hup, List.reverse_cons, walk_append]
      exact ⟨here, hstack, (Leads.down hd hskip hup hlength hl).walk⟩
    | up hd =>
      rw [if_neg (by decide), if_pos rfl]
      have hup : walk root start (Path.dotDot :: stack).reverse = .ok here.tail := by
        rw [List.reverse_cons, walk_append]
        exact ⟨here, hstack, (Leads.up hd).walk⟩
      cases stack with
      -- nothing to take back: the root is its own parent, and elsewhere the step up is kept
      | nil =>
        obtain rfl : start = here := Except.ok.inj hstack
        cases absolute with
        | false => exact hup
        | true => rw [hstart rfl]; rfl
      | cons top rest =>
        dsimp only
        split_ifs with htop
        · exact hup
        · obtain ⟨mid, hrest, hlast⟩ : ∃ mid, walk root start rest.reverse = .ok mid ∧
              walk root mid [top] = .ok here := by
            rwa [List.reverse_cons, walk_append] at hstack
          -- the step on top of the stack led to where the walk is now, so both are taken back
          obtain ⟨next, hnext, hhere⟩ := walk_cons.1 hlast
          obtain rfl : next = here := Except.ok.inj hhere
          rwa [hnext.tail_eq (not_or.2 (hkept top List.mem_cons_self)) htop]

/-! ### Names of paths -/

lemma names_eq_ok : t.names p = .ok ns ↔ p ≠ [] ∧ 0 ∉ p ∧
    walk t.root (if Path.isAbsolute p then [] else (Path.cleanElements t.workingDir).reverse)
      (Path.elements p) = .ok ns.reverse := by
  rw [names]
  by_cases hnil : p = []
  · simp [hnil]
  by_cases hzero : 0 ∈ p
  · simp [hnil, hzero]
  rw [if_neg hnil, if_neg (by simpa using hzero)]
  dsimp only
  constructor
  · intro h
    split at h
    case h_1 here hw =>
      rw [← Except.ok.inj h, List.reverse_reverse]
      exact ⟨hnil, hzero, hw⟩
    case h_2 => cases h
  · rintro ⟨-, -, hw⟩
    simp only [hw, List.reverse_reverse]

lemma entry_eq_ok {c : Entry} : t.entry p = .ok c ↔
    ∃ ns, t.names p = .ok ns ∧ t.root.find? ns = some c := by
  rw [entry]
  cases t.names p with
  | error => simp
  | ok ns => cases hf : t.root.find? ns <;> simp [hf]

lemma stat_eq_ok {c : Entry} : t.stat p = .ok c ↔ t.entry p = .ok c := by
  rw [stat]
  cases t.entry p <;> simp

/-- Cleaning does not change what a path names. -/
theorem names_clean (h : t.names p = .ok ns) : t.names (Path.clean p) = .ok ns := by
  obtain ⟨-, hzero, hw⟩ := names_eq_ok.1 h
  refine names_eq_ok.2 ⟨Path.clean_ne_nil p, fun hc => ?_, ?_⟩
  · exact (Path.mem_clean hc).elim (by decide) hzero
  · rw [Path.isAbsolute_clean_eq]
    obtain ⟨dropped, helements, hdropped⟩ := Path.exists_elements_clean p
    obtain ⟨es, hd⟩ : ∃ es, t.root.find? (if Path.isAbsolute p then [] else
        (Path.cleanElements t.workingDir).reverse).reverse = some (.directory es) := by
      obtain ⟨e, es, hes⟩ := Text.exists_cons_of_split Path.slash p
      rw [Path.elements, hes] at hw
      obtain ⟨mid, hmid, -⟩ := walk_cons.1 hw
      exact hmid.exists_directory
    rw [helements, walk_append]
    refine ⟨_, walk_dropped hd hdropped, ?_⟩
    exact walk_foldl_push (fun ha => if_pos ha) (by simp [Path.Kept]) rfl hw

lemma names_join {es : List (Text × Entry)} {c : Entry} (hn : Entry.ValidName n)
    (h : t.names p = .ok ns) (hd : t.root.find? ns = some (.directory es))
    (hl : es.lookup n = some c) : t.names (Path.join p n) = .ok (ns ++ [n]) := by
  obtain ⟨hnil, hzero, hw⟩ := names_eq_ok.1 h
  rw [Path.join_eq_clean hnil hn.ne_nil]
  refine names_clean (names_eq_ok.2 ⟨by simp, ?_, ?_⟩)
  · simp only [List.mem_append, List.mem_cons, not_or]
    exact ⟨hzero, by decide, hn.zero_not_mem⟩
  · have habsolute : Path.isAbsolute (p ++ Path.slash :: n) = Path.isAbsolute p := by
      obtain ⟨b, p, rfl⟩ := List.exists_cons_of_ne_nil hnil
      rfl
    rw [habsolute, Path.elements, Text.split_append_cons, Text.split_of_not_mem hn.slash_not_mem,
      walk_append]
    refine ⟨ns.reverse, hw, ?_⟩
    rw [List.reverse_append]
    refine (Leads.down (by rwa [List.reverse_reverse]) ?_ hn.ne_dotDot hn.length_le hl).walk
    exact not_or.2 ⟨hn.ne_nil, hn.ne_dot⟩

lemma pairwise_of_entry {es : List (Text × Entry)} (ht : t.Proper)
    (h : t.entry p = .ok (.directory es)) : es.Pairwise fun a b => a.1 < b.1 := by
  obtain ⟨ns, -, hf⟩ := entry_eq_ok.1 h
  cases ht.sorted.of_find? hf with
  | directory hsorted => exact hsorted

lemma validName_of_entry {es : List (Text × Entry)} (ht : t.Proper)
    (h : t.entry p = .ok (.directory es)) : ∀ c ∈ es, Entry.ValidName c.1 := by
  obtain ⟨ns, -, hf⟩ := entry_eq_ok.1 h
  cases (ht.named.of_find? hf).2 with
  | directory hvalid => exact hvalid

/-- What a directory holds has the path of the directory with its name behind it. -/
theorem entry_join {es : List (Text × Entry)} {c : Entry} (ht : t.Proper)
    (h : t.entry p = .ok (.directory es)) (hc : (n, c) ∈ es) :
    t.entry (Path.join p n) = .ok c := by
  have hn := validName_of_entry ht h _ hc
  have hl := Entry.lookup_of_mem (pairwise_of_entry ht h) hc
  obtain ⟨ns, hns, hf⟩ := entry_eq_ok.1 h
  refine entry_eq_ok.2 ⟨ns ++ [n], names_join hn hns hf hl, ?_⟩
  rw [Entry.find?_append, hf, Option.bind_some, Entry.find?,
    Entry.child?_eq_some.2 ⟨es, rfl, hl⟩]
  rfl

lemma ne_nil_of_entry {c : Entry} (h : t.entry p = .ok c) : p ≠ [] := by
  obtain ⟨ns, hns, -⟩ := entry_eq_ok.1 h
  exact (names_eq_ok.1 hns).1

/-- What a path leads to has the names that are left of the path when it is cleaned. -/
lemma names_eq_namesFrom (ht : t.WellFormed) (h : t.names p = .ok ns) :
    ns = Path.namesFrom t.workingDir p := by
  obtain ⟨-, -, hw⟩ := names_eq_ok.1 h
  rw [Path.namesFrom_eq_foldl ht.absolute, ← walk_eq_foldl ?_ hw, List.reverse_reverse]
  split_ifs
  · exact List.not_mem_nil
  · rw [List.mem_reverse]
    intro hd
    exact (Path.isName_of_mem_cleanElements ht.absolute _ hd).ne_dotDot rfl

/-- What is in a tree has an absolute path. -/
lemma names_ofNames {c : Entry} (ht : t.Proper) (hf : t.root.find? ns = some c) :
    t.names (Path.ofNames ns) = .ok ns := by
  have hvalid := (ht.named.of_find? hf).1
  have hnames : ∀ n ∈ ns, Path.IsName n := fun n hn => (hvalid n hn).toIsName
  refine names_eq_ok.2 ⟨List.cons_ne_nil _ _, fun hzero => ?_, ?_⟩
  · rcases List.mem_cons.1 hzero with hzero | hzero
    · cases hzero
    · rcases Text.mem_join hzero with hzero | ⟨n, hn, hzero⟩
      · cases List.mem_singleton.1 hzero
      · exact (hvalid n hn).zero_not_mem hzero
  · obtain ⟨dropped, helements, hdropped⟩ := Path.exists_elements_clean (Path.ofNames ns)
    rw [Path.clean_ofNames hnames, Path.cleanElements_ofNames hnames] at helements
    obtain ⟨es, hes⟩ : ∃ es, t.root = .directory es := by
      cases hroot : t.root with
      | file => exact absurd ht.directory (by simp [hroot, Entry.isDirectory])
      | directory es => exact ⟨es, rfl⟩
    rw [helements, walk_append]
    refine ⟨[], walk_dropped (congrArg some hes) hdropped, ?_⟩
    rw [walk_of_find? hvalid hf, List.append_nil]

/-- Resolving does not change what a path names. -/
theorem entry_resolve {c : Entry} (ht : t.Proper) (hp : Path.EndsWithName p)
    (h : t.entry p = .ok c) : t.entry (Path.resolve t.workingDir p) = .ok c := by
  obtain ⟨ns, hn, hf⟩ := entry_eq_ok.1 h
  rw [Path.resolve_eq_ofNames ht.absolute ht.clean hp, ← names_eq_namesFrom ht.toWellFormed hn]
  exact entry_eq_ok.2 ⟨ns, names_ofNames ht hf, hf⟩

end FileTree

end Frontend
