import Frontend.FileTree
import Mathlib

/-!
# Rewriting a file

A file that is there can be given another content. What then changes is this content and nothing
else: the names in the tree, and which of them are directories, are its outline, and every question
that is not about contents has an answer that the outline decides.
-/

namespace Frontend

namespace Entry

/-! ### Entries of a directory -/

section Entries

variable {name other : Text}

lemma lookup_cons_of_ne (h : other ≠ name) (e : Entry) (es : List (Text × Entry)) :
    ((name, e) :: es).lookup other = es.lookup other := by
  rw [List.lookup_cons, beq_eq_false_iff_ne.2 h]

@[simp] lemma lookup_insertEntry_self (name : Text) (e : Entry) (es : List (Text × Entry)) :
    (insertEntry name e es).lookup name = some e := by
  fun_induction insertEntry name e es with
  | case1 => exact List.lookup_cons_self
  | case2 => exact List.lookup_cons_self
  | case3 => exact List.lookup_cons_self
  | case4 n f es hn hlt ih => rw [lookup_cons_of_ne (Ne.symm hn), ih]

lemma lookup_insertEntry_of_ne (h : other ≠ name) (e : Entry) (es : List (Text × Entry)) :
    (insertEntry name e es).lookup other = es.lookup other := by
  fun_induction insertEntry name e es with
  | case1 => exact lookup_cons_of_ne h e []
  | case2 => rw [lookup_cons_of_ne h, lookup_cons_of_ne h]
  | case3 => rw [lookup_cons_of_ne h]
  | case4 n f es hn hlt ih => rw [List.lookup_cons, List.lookup_cons, ih]

/-- What is put in twice is put in once. -/
lemma insertEntry_insertEntry (name : Text) (e : Entry) (es : List (Text × Entry)) :
    insertEntry name e (insertEntry name e es) = insertEntry name e es := by
  fun_induction insertEntry name e es with
  | case1 => simp [insertEntry]
  | case2 => simp [insertEntry]
  | case3 => simp [insertEntry]
  | case4 n f es hn hlt ih => simp [insertEntry, hn, hlt, ih]

end Entries

/-! ### Outlines -/

mutual

/-- An entry without the contents of its files. -/
def outline : Entry → Entry
  | .file _       => .file []
  | .directory es => .directory (outlineAll es)

/-- The entries of a directory without the contents of their files. -/
def outlineAll : List (Text × Entry) → List (Text × Entry)
  | []              => []
  | (name, e) :: es => (name, e.outline) :: outlineAll es

end

lemma outlineAll_eq_map (es : List (Text × Entry)) :
    outlineAll es = es.map fun c => (c.1, c.2.outline) := by
  induction es with
  | nil => rfl
  | cons c es ih =>
    obtain ⟨name, e⟩ := c
    rw [outlineAll, ih, List.map_cons]

lemma lookup_outlineAll (name : Text) (es : List (Text × Entry)) :
    (outlineAll es).lookup name = (es.lookup name).map outline := by
  induction es with
  | nil => rfl
  | cons c es ih =>
    obtain ⟨n, e⟩ := c
    rw [outlineAll, List.lookup_cons, List.lookup_cons, ih]
    cases name == n <;> rfl

lemma child?_outline (e : Entry) (name : Text) :
    e.outline.child? name = (e.child? name).map outline := by
  cases e with
  | file => rfl
  | directory es => exact lookup_outlineAll name es

lemma find?_outline (e : Entry) (ns : List Text) :
    e.outline.find? ns = (e.find? ns).map outline := by
  induction ns generalizing e with
  | nil => rfl
  | cons n ns ih =>
    rw [find?, find?, child?_outline]
    cases e.child? n with
    | none => rfl
    | some c => exact ih c

@[simp] lemma isDirectory_outline (e : Entry) : e.outline.isDirectory = e.isDirectory := by
  cases e <;> rfl

/-! ### Sorted trees -/

/-- Every directory of a tree has its entries sorted by name, and each name once. -/
inductive Sorted : Entry → Prop
  | file (content : Text) : Sorted (.file content)
  | directory {es : List (Text × Entry)} (h : es.Pairwise fun a b => a.1 < b.1)
      (hs : ∀ c ∈ es, Sorted c.2) : Sorted (.directory es)

lemma mem_of_lookup {name : Text} {e : Entry} {es : List (Text × Entry)}
    (h : es.lookup name = some e) : (name, e) ∈ es := by
  obtain ⟨l₁, l₂, rfl, -⟩ := List.lookup_eq_some_iff.1 h
  simp

lemma mem_insertEntry {name : Text} {e : Entry} {es : List (Text × Entry)} {c : Text × Entry}
    (h : c ∈ insertEntry name e es) : c = (name, e) ∨ c ∈ es := by
  fun_induction insertEntry name e es with
  | case1 => exact .inl (List.mem_singleton.1 h)
  | case2 =>
    rcases List.mem_cons.1 h with rfl | h
    · exact .inl rfl
    · exact .inr (List.mem_cons_of_mem _ h)
  | case3 => exact List.mem_cons.1 h
  | case4 n f es _ _ ih =>
    rcases List.mem_cons.1 h with rfl | h
    · exact .inr List.mem_cons_self
    · exact (ih h).imp_right (List.mem_cons_of_mem _)

lemma pairwise_insertEntry {name : Text} {es : List (Text × Entry)} (e : Entry)
    (h : es.Pairwise fun a b => a.1 < b.1) :
    (insertEntry name e es).Pairwise fun a b => a.1 < b.1 := by
  fun_induction insertEntry name e es with
  | case1 => exact List.pairwise_singleton _ _
  | case2 => exact List.pairwise_cons.2 (List.pairwise_cons.1 h)
  | case3 n f es _ hlt =>
    refine List.pairwise_cons.2 ⟨List.forall_mem_cons.2 ⟨hlt, fun c hc => ?_⟩, h⟩
    exact List.lt_trans hlt ((List.pairwise_cons.1 h).1 c hc)
  | case4 n f es hn hlt ih =>
    obtain ⟨hhead, htail⟩ := List.pairwise_cons.1 h
    refine List.pairwise_cons.2 ⟨fun c hc => ?_, ih htail⟩
    rcases mem_insertEntry hc with rfl | hc
    · exact Std.lt_of_le_of_ne hlt hn
    · exact hhead c hc

lemma Sorted.child {e c : Entry} {name : Text} (h : e.Sorted) (hc : e.child? name = some c) :
    c.Sorted := by
  cases h with
  | file => cases hc
  | directory _ hs => exact hs _ (mem_of_lookup hc)

/-- The entries of a sorted tree with one of them put in or replaced. -/
lemma Sorted.insertEntry {e new : Entry} (h : e.Sorted) (hn : new.Sorted) (name : Text) :
    (Entry.directory (insertEntry name new e.entries)).Sorted := by
  have hentries : (e.entries.Pairwise fun a b => a.1 < b.1) ∧ ∀ c ∈ e.entries, c.2.Sorted := by
    cases h with
    | file => exact ⟨.nil, by simp [entries]⟩
    | directory hp hs => exact ⟨hp, hs⟩
  refine .directory (pairwise_insertEntry _ hentries.1) fun c hc => ?_
  rcases mem_insertEntry hc with rfl | hc
  · exact hn
  · exact hentries.2 c hc

/-- A tree stays sorted when something is put into it. -/
lemma Sorted.put {e new : Entry} (h : e.Sorted) (hn : new.Sorted) (ns : List Text) :
    (e.put ns new).Sorted := by
  induction ns generalizing e with
  | nil => exact hn
  | cons n ns ih =>
    have hchild : ((e.child? n).getD (.directory [])).Sorted := by
      cases hc : e.child? n with
      | none => exact .directory .nil (by simp)
      | some c => exact h.child hc
    exact h.insertEntry (ih hchild) n

/-- A tree stays sorted when something is taken out of it. -/
lemma Sorted.remove {e : Entry} (h : e.Sorted) (ns : List Text) : (e.remove ns).Sorted := by
  fun_induction Entry.remove e ns with
  | case1 => exact h
  | case2 => exact h
  | case3 name es =>
    cases h with
    | directory hp hs => exact .directory (hp.filter _) fun c hc => hs c (List.mem_filter.1 hc).1
  | case4 e name ns _ c hc ih => exact h.insertEntry (ih (h.child hc)) name
  | case5 => exact h

/-- An entry that is replaced by one of the same outline leaves that of its directory as it is. -/
lemma outlineAll_insertEntry {name : Text} {e new : Entry} {es : List (Text × Entry)}
    (hs : es.Pairwise fun a b => a.1 < b.1) (hl : es.lookup name = some e)
    (ho : new.outline = e.outline) : outlineAll (insertEntry name new es) = outlineAll es := by
  induction es with
  | nil => cases hl
  | cons c es ih =>
    obtain ⟨n, f⟩ := c
    obtain ⟨hlt, hs⟩ := List.pairwise_cons.1 hs
    rw [insertEntry]
    by_cases hn : n = name
    · subst hn
      obtain rfl : f = e := by simpa using hl
      rw [if_pos rfl, outlineAll, outlineAll, ho]
    · have hl' : es.lookup name = some e := by rwa [lookup_cons_of_ne (Ne.symm hn)] at hl
      have hnot : ¬name < n := List.lt_asymm (hlt _ (mem_of_lookup hl'))
      rw [if_neg hn, if_neg hnot, outlineAll, outlineAll, ih hs hl']

/-- A file that is given another content leaves the outline of the tree as it is. -/
lemma outline_put {e : Entry} {ns : List Text} {old : Text} (hs : e.Sorted)
    (h : e.find? ns = some (.file old)) (new : Text) :
    (e.put ns (.file new)).outline = e.outline := by
  induction ns generalizing e with
  | nil =>
    obtain rfl : e = .file old := Option.some.inj h
    rfl
  | cons n ns ih =>
    rw [find?] at h
    cases hc : e.child? n with
    | none => simp [hc] at h
    | some c =>
      simp only [hc] at h
      have hsub := ih (hs.child hc) h
      cases hs with
      | file => cases hc
      | directory hp _ =>
        rw [put, hc, Option.getD_some, outline, outline]
        exact congrArg _ (outlineAll_insertEntry hp hc hsub)

/-! ### Contents -/

/-- The content of the file at the end of a list of names. -/
def content? (e : Entry) (ns : List Text) : Option Text :=
  match e.find? ns with
  | some (.file content) => some content
  | _                    => none

lemma content?_cons (e : Entry) (n : Text) (ns : List Text) :
    e.content? (n :: ns) = (e.child? n).bind (·.content? ns) := by
  rw [content?, find?]
  cases e.child? n <;> rfl

lemma content?_file_cons (content n : Text) (ns : List Text) :
    (Entry.file content).content? (n :: ns) = none := rfl

/-- A file that is given another content leaves all other contents as they are. -/
lemma content?_put {e : Entry} {ns ms : List Text} {old : Text}
    (h : e.find? ns = some (.file old)) (new : Text) :
    (e.put ns (.file new)).content? ms = if ms = ns then some new else e.content? ms := by
  induction ns generalizing e ms with
  | nil =>
    obtain rfl : e = .file old := Option.some.inj h
    cases ms with
    | nil => rfl
    | cons m ms => simp [put, content?_file_cons]
  | cons n ns ih =>
    rw [find?] at h
    cases hc : e.child? n with
    | none => simp [hc] at h
    | some c =>
      simp only [hc] at h
      rw [put, hc, Option.getD_some]
      match ms with
      | [] =>
        match e with
        | .file _      => cases hc
        | .directory _ => rfl
      | m :: ms =>
        rw [content?_cons, content?_cons, child?, entries]
        by_cases hm : m = n
        · subst hm
          rw [lookup_insertEntry_self, hc, Option.bind_some, Option.bind_some, ih h]
          simp
        · rw [lookup_insertEntry_of_ne hm, if_neg (by simp [hm])]
          rfl

/-- The second time the same is put in place of itself. -/
lemma put_put (e : Entry) (ns : List Text) (new : Entry) :
    (e.put ns new).put ns new = e.put ns new := by
  induction ns generalizing e with
  | nil => rfl
  | cons n ns ih =>
    rw [put, put]
    simp only [child?, entries, lookup_insertEntry_self, Option.getD_some, ih,
      insertEntry_insertEntry]

end Entry

namespace FileTree

variable {t t' : FileTree} {path content : Text}

/-! ### Questions that the outline answers -/

/-- A tree without the contents of its files. -/
def outline (t : FileTree) : FileTree := { t with root := t.root.outline }

lemma walk_outline (root : Entry) (here es : List Text) :
    walk root.outline here es = walk root here es := by
  induction es generalizing here with
  | nil => rfl
  | cons e es ih =>
    rw [walk, walk, Entry.find?_outline]
    cases root.find? here.reverse with
    | none => rfl
    | some c =>
      cases c with
      | file => rfl
      | directory children =>
        simp only [Option.map_some, Entry.outline, Entry.lookup_outlineAll, ih]
        cases children.lookup e <;> rfl

@[simp] lemma names_outline (t : FileTree) (path : Text) : t.outline.names path = t.names path := by
  simp only [names, outline, walk_outline]

lemma entry_outline (t : FileTree) (path : Text) :
    t.outline.entry path = (t.entry path).map Entry.outline := by
  rw [entry, entry, names_outline]
  cases t.names path with
  | error e => rfl
  | ok ns =>
    simp only [outline, Entry.find?_outline]
    cases t.root.find? ns <;> rfl

lemma stat_outline (t : FileTree) (path : Text) :
    t.outline.stat path = (t.stat path).map Entry.outline := by
  rw [stat, stat, entry_outline]
  cases t.entry path <;> rfl

lemma names_congr (h : t'.outline = t.outline) (path : Text) : t'.names path = t.names path := by
  rw [← names_outline t', h, names_outline]

/-- Two paths name the same entry. -/
def SameEntry (t : FileTree) (p q : Text) : Prop := ∃ ns, t.names p = .ok ns ∧ t.names q = .ok ns

/-! ### Contents -/

lemma read_eq_ok : t.read path = .ok content ↔
    ∃ ns, t.names path = .ok ns ∧ t.root.find? ns = some (.file content) := by
  rw [read, entry]
  cases t.names path with
  | error e => simp
  | ok ns =>
    cases hf : t.root.find? ns with
    | none => simp [hf]
    | some e => cases e <;> simp [hf]

/-- A path is read in the same way in two trees of the same outline, if the content there is the
same. -/
lemma read_congr (h : t'.outline = t.outline)
    (hc : ∀ ns, t.names path = .ok ns → t'.root.content? ns = t.root.content? ns) :
    t'.read path = t.read path := by
  rw [read, read, entry, entry, names_congr h]
  cases hn : t.names path with
  | error e => rfl
  | ok ns =>
    have hroot : t'.root.outline = t.root.outline := congrArg FileTree.root h
    have hfind : (t'.root.find? ns).map Entry.outline = (t.root.find? ns).map Entry.outline := by
      rw [← Entry.find?_outline, hroot, Entry.find?_outline]
    have hcont := hc ns hn
    simp only [Entry.content?] at hcont ⊢
    cases hnew : t'.root.find? ns with
    | none =>
      rw [hnew, Option.map_none, eq_comm, Option.map_eq_none_iff] at hfind
      rw [hfind]
    | some e' =>
      obtain ⟨e, hold, he⟩ : ∃ e, t.root.find? ns = some e ∧ e.outline = e'.outline := by
        rw [hnew, Option.map_some] at hfind
        exact Option.map_eq_some_iff.1 hfind.symm
      rw [hnew, hold] at hcont
      rw [hold]
      cases e' with
      | file =>
        cases e with
        | file => exact congrArg _ (Option.some.inj hcont)
        | directory => cases he
      | directory =>
        cases e with
        | file => cases he
        | directory => rfl

/-! ### Absolute paths -/

/-- Walking leads to where the elements of the path lead without looking at the tree. -/
lemma walk_eq_foldl {root : Entry} {here es r : List Text} (hd : Path.dotDot ∉ here)
    (h : walk root here es = .ok r) : r = es.foldl (Path.push true) here := by
  induction es generalizing here with
  | nil => exact (Except.ok.inj h).symm
  | cons e es ih =>
    rw [walk] at h
    split at h
    case h_1 => cases h
    case h_2 => cases h
    case h_3 children _ =>
      rw [List.foldl_cons]
      by_cases hdot : e = [] ∨ e = Path.dot
      · rw [if_pos hdot] at h
        rw [Path.push.eq_def, if_pos hdot]
        exact ih hd h
      · rw [if_neg hdot] at h
        rw [Path.push.eq_def, if_neg hdot]
        by_cases hdots : e = Path.dotDot
        · rw [if_pos hdots] at h ⊢
          cases here with
          -- the root is its own parent
          | nil => exact ih hd h
          | cons top rest =>
            obtain ⟨htop, hrest⟩ := List.ne_and_not_mem_of_not_mem_cons hd
            simp only [if_neg (Ne.symm htop)]
            exact ih hrest h
        · rw [if_neg hdots] at h ⊢
          split_ifs at h
          cases hl : children.lookup e with
          | none => simp [hl] at h
          | some c =>
            simp only [hl] at h
            exact ih (by simpa [Ne.symm hdots] using hd) h

lemma names_of_isAbsolute {ns : List Text} (hp : Path.isAbsolute path = true)
    (h : t.names path = .ok ns) : ns = Path.cleanElements path := by
  rw [names] at h
  split_ifs at h
  cases hw : walk t.root [] (Path.elements path) with
  | error e => simp [hw] at h
  | ok here =>
    simp only [hw, Except.ok.injEq] at h
    rw [← h, walk_eq_foldl (by simp) hw, Path.cleanElements, hp]

/-! ### Writing -/

/-- The entries of directories are sorted, and the working directory has an absolute path. The empty
tree is well-formed, and what is done to a tree keeps it so. -/
structure WellFormed (t : FileTree) : Prop where
  sorted : t.root.Sorted
  absolute : Path.isAbsolute t.workingDir = true

lemma wellFormed_empty : WellFormed {} := ⟨.directory .nil (by simp), rfl⟩

lemma WellFormed.write (h : t.WellFormed) (path content : Text) :
    (t.write path content).WellFormed :=
  ⟨h.sorted.put (.file content) _, h.absolute⟩

lemma WellFormed.makeDirectory (h : t.WellFormed) (path : Text) :
    (t.makeDirectory path).WellFormed := by
  simp only [FileTree.makeDirectory]
  split
  · exact h
  · exact ⟨h.sorted.put (.directory .nil (by simp)) _, h.absolute⟩

lemma WellFormed.remove (h : t.WellFormed) (path : Text) : (t.remove path).WellFormed := by
  rw [FileTree.remove]
  split
  · exact ⟨h.sorted.remove _, h.absolute⟩
  · exact h

/-- A file of a tree has another content in a second tree, and nothing else is different. -/
structure Rewritten (t t' : FileTree) (path content : Text) : Prop where
  outline : t'.outline = t.outline
  read : t'.read path = .ok content
  others : ∀ p, ¬t.SameEntry p path → t'.read p = t.read p

lemma write_of_names {ns : List Text} (hp : Path.isAbsolute path = true)
    (h : t.names path = .ok ns) (content : Text) :
    t.write path content = { t with root := t.root.put ns (.file content) } := by
  rw [FileTree.write, names_of_isAbsolute hp h]
  simp only [hp, if_true]

lemma write_write (t : FileTree) (path content : Text) :
    (t.write path content).write path content = t.write path content := by
  simp only [FileTree.write, Entry.put_put]

/-- Writing a file that is there rewrites it. -/
theorem rewritten_write {old : Text} (ht : t.WellFormed) (hp : Path.isAbsolute path = true)
    (hr : t.read path = .ok old) (content : Text) :
    Rewritten t (t.write path content) path content := by
  obtain ⟨ns, hn, hf⟩ := read_eq_ok.1 hr
  have hwrite := write_of_names hp hn content
  have houtline : (t.write path content).outline = t.outline := by
    rw [hwrite, FileTree.outline, FileTree.outline, Entry.outline_put ht.sorted hf]
  have hcontent : ∀ ms, (t.write path content).root.content? ms =
      if ms = ns then some content else t.root.content? ms := by
    intro ms
    rw [hwrite]
    exact Entry.content?_put hf content
  refine ⟨houtline, read_eq_ok.2 ⟨ns, (names_congr houtline path).trans hn, ?_⟩, ?_⟩
  · have h := hcontent ns
    rw [if_pos rfl, Entry.content?] at h
    split at h
    case h_1 hfind => rw [hfind, Option.some.inj h]
    case h_2 => cases h
  · intro p hsame
    refine read_congr houtline fun ms hms => ?_
    rw [hcontent, if_neg]
    rintro rfl
    exact hsame ⟨ms, hms, hn⟩

end FileTree

end Frontend
