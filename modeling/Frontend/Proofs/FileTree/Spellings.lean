import Frontend.Proofs.FileTree.Resolution
import Frontend.SourceModule

/-!
# Spellings of a path

Cleaning is idempotent, also for relative paths, and it can be done before something is put behind
a path. So the elements of a path can be resolved one at a time, from its end: `Path.Resolves` says
so as a recursion, and `Path.resolve` is what this recursion comes to.

Two spellings of one path therefore resolve to the same path and load the same module, as long as
neither ends with a separator. Behind one, the last element of the path is found once more.
-/

namespace Frontend

namespace Path

variable {p q u n e workingDir r : Text} {ns ms es stack : List Text} {absolute : Bool}

/-! ### Cleaning twice -/

/-- Cleaning keeps all of these elements. -/
def Settled (absolute : Bool) (es : List Text) : Prop := es.foldl (push absolute) [] = es.reverse

/-- An element comes on top of the stack, or the stack does not grow. -/
lemma push_eq_cons_or (absolute : Bool) (stack : List Text) (e : Text) :
    push absolute stack e = e :: stack ∨ push absolute stack e <:+ stack := by
  rw [push.eq_def]
  by_cases hskip : e = [] ∨ e = dot
  · rw [if_pos hskip]
    exact .inr List.suffix_rfl
  rw [if_neg hskip]
  by_cases hup : e = dotDot
  · rw [if_pos hup]
    subst hup
    cases stack with
    | nil =>
      cases absolute with
      | true => exact .inr List.suffix_rfl
      | false => exact .inl rfl
    | cons top rest =>
      dsimp only
      split_ifs
      · exact .inl rfl
      · exact .inr (List.suffix_cons top rest)
  · rw [if_neg hup]
    exact .inl rfl

lemma length_foldl_push_le (absolute : Bool) (es stack : List Text) :
    (es.foldl (push absolute) stack).length ≤ stack.length + es.length := by
  induction es generalizing stack with
  | nil => exact Nat.le_refl _
  | cons e es ih =>
    have hstep : (push absolute stack e).length ≤ stack.length + 1 := by
      rcases push_eq_cons_or absolute stack e with hpush | hpush
      · rw [hpush, List.length_cons]
      · exact Nat.le_succ_of_le hpush.length_le
    have hrest := ih (push absolute stack e)
    rw [List.foldl_cons, List.length_cons]
    omega

lemma Settled.of_concat (h : Settled absolute (ns ++ [n])) : Settled absolute ns := by
  rw [Settled, List.foldl_append, List.foldl_cons, List.foldl_nil, List.reverse_concat] at h
  rcases push_eq_cons_or absolute (ns.foldl (push absolute) []) n with hpush | hpush
  · exact (List.cons_eq_cons.1 (hpush.symm.trans h)).2
  · -- The stack would hold more elements than were put on it.
    have hle := length_foldl_push_le absolute ns []
    have hlength := hpush.length_le
    rw [h, List.length_cons, List.length_reverse] at hlength
    rw [List.length_nil] at hle
    omega

lemma Settled.push (h : Settled absolute stack.reverse) (e : Text) :
    Settled absolute (push absolute stack e).reverse := by
  rcases push_eq_cons_or absolute stack e with hpush | ⟨dropped, hpush⟩
  · rw [hpush, List.reverse_cons, Settled, List.foldl_append, h, List.reverse_reverse,
      List.foldl_cons, List.foldl_nil, hpush]
    simp
  · generalize Path.push absolute stack e = rest at hpush
    subst hpush
    clear e
    induction dropped with
    | nil => exact h
    | cons top dropped ih => exact ih (Settled.of_concat (by simpa using h))

lemma settled_cleanElements (p : Text) : Settled (isAbsolute p) (cleanElements p) := by
  have hfold : ∀ es stack : List Text, Settled (isAbsolute p) stack.reverse →
      Settled (isAbsolute p) (es.foldl (push (isAbsolute p)) stack).reverse := by
    intro es
    induction es with
    | nil => exact fun _ h => h
    | cons e es ih => exact fun stack h => ih _ (h.push e)
  exact hfold (elements p) [] rfl

/-- Elements that are dropped do nothing. -/
lemma foldl_push_of_dropped (hes : ∀ e ∈ es, e = [] ∨ e = dot) (absolute : Bool)
    (stack : List Text) : es.foldl (push absolute) stack = stack := by
  induction es with
  | nil => rfl
  | cons e es ih =>
    rw [List.forall_mem_cons] at hes
    rw [List.foldl_cons, push.eq_def, if_pos hes.1, ih hes.2]

/-- A cleaned path has the elements that were left. -/
lemma cleanElements_clean (p : Text) : cleanElements (clean p) = cleanElements p := by
  obtain ⟨dropped, helements, hdropped⟩ := exists_elements_clean p
  rw [cleanElements, isAbsolute_clean_eq, helements, List.foldl_append,
    foldl_push_of_dropped hdropped, settled_cleanElements, List.reverse_reverse]

/-- Cleaning a second time changes nothing. -/
theorem clean_idem (p : Text) : clean (clean p) = clean p := by
  rw [clean.eq_def (clean p), isAbsolute_clean_eq, cleanElements_clean]
  rfl

/-- A path may be cleaned before something is put behind it. -/
lemma clean_clean_append (hp : p ≠ []) (e : Text) :
    clean (clean p ++ slash :: e) = clean (p ++ slash :: e) := by
  have habsolute : ∀ q : Text, q ≠ [] → isAbsolute (q ++ slash :: e) = isAbsolute q := by
    intro q hq
    obtain ⟨b, q, rfl⟩ := List.exists_cons_of_ne_nil hq
    rfl
  have helements : ∀ q : Text, q ≠ [] → cleanElements (q ++ slash :: e) =
      ((elements e).foldl (push (isAbsolute q)) (cleanElements q).reverse).reverse := by
    intro q hq
    rw [cleanElements, habsolute q hq, cleanElements, List.reverse_reverse, elements,
      Text.split_append_cons, List.foldl_append]
    rfl
  have hclean := clean_ne_nil p
  rw [clean.eq_def, clean.eq_def (p ++ _), habsolute _ hclean, habsolute p hp, helements _ hclean,
    helements p hp, isAbsolute_clean_eq, cleanElements_clean]

/-! ### The end of a clean path -/

lemma elements_append_slash (u n : Text) (hn : slash ∉ n) :
    elements (u ++ slash :: n) = elements u ++ [n] := by
  rw [elements, Text.split_append_cons, Text.split_of_not_mem hn, elements]

lemma endsWithName_clean (p : Text) : EndsWithName (clean p) := by
  refine or_iff_not_imp_right.2 fun hlast => ?_
  obtain ⟨u, hu⟩ := List.getLast?_eq_some_iff.1 (not_not.1 hlast)
  rcases List.eq_nil_or_concat' (cleanElements p) with hes | ⟨ms, n, hes⟩
  · rw [clean, hes] at hu ⊢
    cases ha : isAbsolute p with
    | true => rfl
    | false =>
      rw [ha] at hu
      exact absurd (congrArg List.getLast? hu) (by simp [dot, slash])
  · -- The last element of a clean path is not empty.
    have hn : n ≠ [] := (mem_cleanElements (p := p) (n := n) (by simp [hes])).1
    obtain ⟨dropped, helements, -⟩ := exists_elements_clean p
    rw [hes, hu, elements_append_slash u [] List.not_mem_nil, ← List.append_assoc] at helements
    exact absurd (List.append_inj_right' helements rfl) (by simpa using hn.symm)

/-- The parent of a clean path lacks the last element. -/
lemma cleanElements_dir_clean (h : cleanElements p = ms ++ [n]) :
    cleanElements (dir (clean p)) = ms := by
  have hsettled := settled_cleanElements p
  rw [h] at hsettled
  have hms := hsettled.of_concat
  obtain ⟨dropped, helements, hdropped⟩ := exists_elements_clean p
  rw [h, ← List.append_assoc] at helements
  have habsolute := isAbsolute_clean_eq p
  rw [dir, cleanElements_clean]
  obtain ⟨n', hp, hn', hu⟩ := exists_throughSlash (clean p)
  generalize throughSlash (clean p) = u at hp hu ⊢
  rw [hp] at helements habsolute
  rcases hu with rfl | hu
  · rw [List.nil_append, elements, Text.split_of_not_mem hn'] at helements
    have hnil : [] = dropped ++ ms := List.append_inj_left' (show [] ++ [n'] = _ from helements) rfl
    exact (List.append_eq_nil_iff.1 hnil.symm).2.symm
  · obtain ⟨v, rfl⟩ := List.getLast?_eq_some_iff.1 hu
    rw [List.append_assoc, List.singleton_append] at helements habsolute
    rw [elements_append_slash v n' hn'] at helements
    have hv : isAbsolute (v ++ [slash]) = isAbsolute p := by
      rw [← habsolute]
      cases v <;> rfl
    rw [cleanElements, hv, elements_append_slash v [] List.not_mem_nil,
      List.append_inj_left' helements rfl, List.foldl_append, List.foldl_append,
      foldl_push_of_dropped hdropped, hms]
    exact List.reverse_reverse ms

/-! ### Resolving element by element -/

/-- An element behind a path that is already resolved. -/
def attach (parent element : Text) : Text :=
  if element = dot then parent else if element = dotDot then dir parent else join parent element

/-- A path stands for an absolute one, seen from a working directory. The path is taken apart from
its end: its parent is resolved first, and its last element is attached to what comes out. -/
inductive Resolves (workingDir : Text) : Text → Text → Prop
  | root : Resolves workingDir root root
  | here : Resolves workingDir dot workingDir
  | element {p parent : Text} (hroot : p ≠ root) (hdot : p ≠ dot)
      (h : Resolves workingDir (dir p) parent) : Resolves workingDir p (attach parent (base p))

section

variable (hw : isAbsolute workingDir = true) (hclean : clean workingDir = workingDir)
include hw hclean

/-- A clean path is resolved by putting it behind the working directory. -/
lemma resolve_clean (p : Text) : resolve workingDir (clean p) =
    if isAbsolute (clean p) then clean p else join workingDir (clean p) := by
  rw [resolve_eq_ofNames hw hclean (endsWithName_clean p), namesFrom_clean hw,
    ofNames_namesFrom hw]

/-- Resolving takes a path apart at its last element. -/
lemma resolve_eq_attach (hroot : p ≠ root) (hdot : p ≠ dot) :
    resolve workingDir p = attach (resolve workingDir (dir p)) (base p) := by
  rw [dir, resolve_clean hw hclean, ← dir, resolve, if_neg hroot, if_neg hdot]
  rfl

lemma Resolves.eq_resolve (h : Resolves workingDir p r) : r = resolve workingDir p := by
  induction h with
  | root => rfl
  | here => rfl
  | element hroot hdot _ ih => rw [resolve_eq_attach hw hclean hroot hdot, ← ih]

lemma resolves_of_dir (h : Resolves workingDir (dir p) (resolve workingDir (dir p))) :
    Resolves workingDir p (resolve workingDir p) := by
  by_cases hroot : p = root
  · subst hroot
    exact .root
  by_cases hdot : p = dot
  · subst hdot
    exact .here
  · rw [resolve_eq_attach hw hclean hroot hdot]
    exact .element hroot hdot h

/-- The recursion comes to an end: the parent of a clean path has one element less. -/
lemma resolves_clean (p : Text) : Resolves workingDir (clean p) (resolve workingDir (clean p)) := by
  generalize hes : cleanElements p = es
  induction es using List.reverseRecOn generalizing p with
  | nil =>
    rw [clean, hes]
    cases isAbsolute p with
    | true => exact .root
    | false => exact .here
  | append_singleton ms n ih =>
    have hdir := ih (throughSlash (clean p)) (by
      rw [← cleanElements_clean, ← dir, cleanElements_dir_clean hes])
    exact resolves_of_dir hw hclean hdir

/-- Resolving is what the recursion over the elements of a path comes to. -/
theorem resolves_iff : Resolves workingDir p r ↔ r = resolve workingDir p := by
  constructor
  · exact Resolves.eq_resolve hw hclean
  · rintro rfl
    exact resolves_of_dir hw hclean (resolves_clean hw hclean (throughSlash p))

end

/-! ### What a path resolves to -/

/-- A path as it is seen from a working directory. -/
def seenFrom (workingDir p : Text) : Text :=
  if isAbsolute p then p else workingDir ++ slash :: p

lemma isAbsolute_seenFrom (hw : isAbsolute workingDir = true) (p : Text) :
    isAbsolute (seenFrom workingDir p) = true := by
  rw [seenFrom]
  split_ifs with hp
  · exact hp
  · exact isAbsolute_append hw _

lemma ofNames_namesFrom_eq_clean (hw : isAbsolute workingDir = true) (p : Text) :
    ofNames (namesFrom workingDir p) = clean (seenFrom workingDir p) :=
  (clean_of_isAbsolute (isAbsolute_seenFrom hw p)).symm

lemma base_ne_nil (p : Text) : base p ≠ [] := by
  rw [base]
  by_cases hp : p = []
  · rw [if_pos hp]
    decide
  rw [if_neg hp]
  generalize htrimmed : p.reverse.dropWhile (· == slash) = trimmed
  cases trimmed with
  | nil => decide
  | cons b t =>
    -- The separators at the end are gone, so there is something behind the last one.
    have hb : (b == slash) = false := by
      have hhead := List.head?_dropWhile_not (· == slash) p.reverse
      simpa [htrimmed] using hhead
    rw [List.reverse_cons]
    split
    · next hnil => simp at hnil
    · simp [afterSlash, bne, hb]

lemma attach_ofNames (hns : ∀ m ∈ ns, IsName m) (he : e ≠ []) :
    attach (ofNames ns) e = clean (ofNames ns ++ slash :: e) := by
  by_cases hslash : slash ∈ e
  · have hdot : e ≠ dot := by
      rintro rfl
      exact absurd hslash (by decide)
    have hup : e ≠ dotDot := by
      rintro rfl
      exact absurd hslash (by decide)
    rw [attach, if_neg hdot, if_neg hup]
    exact join_eq_clean (List.cons_ne_nil slash _) he
  · rw [attach, push_ofNames hns hslash he, clean_of_isAbsolute rfl, cleanElements_append rfl,
      cleanElements_ofNames hns, elements, Text.split_of_not_mem hslash]
    rfl

section

variable (hw : isAbsolute workingDir = true) (hclean : clean workingDir = workingDir)
include hw hclean

/-- A path that does not end with a separator is cleaned. -/
theorem resolve_eq_clean (hp : EndsWithName p) :
    resolve workingDir p = clean (seenFrom workingDir p) := by
  rw [resolve_eq_ofNames hw hclean hp, ofNames_namesFrom_eq_clean hw]

/-- Behind a separator at its end, the last element of a path is found a second time. -/
theorem resolve_of_separator (hp : ¬EndsWithName p) :
    resolve workingDir p = clean (seenFrom workingDir p ++ slash :: base p) := by
  obtain ⟨hroot, hlast⟩ := not_or.1 hp
  obtain ⟨u, hu⟩ := List.getLast?_eq_some_iff.1 (not_not.1 hlast)
  have hdot : p ≠ dot := by
    rintro rfl
    exact absurd (congrArg List.getLast? hu) (by simp [dot, slash])
  have hdir : dir p = clean p := by
    rw [dir, hu, throughSlash_append u List.not_mem_nil]
  have hseen : seenFrom workingDir p ≠ [] := by
    obtain ⟨q, hq⟩ := exists_cons_of_isAbsolute (isAbsolute_seenFrom hw p)
    exact hq ▸ List.cons_ne_nil slash q
  rw [resolve_eq_attach hw hclean hroot hdot, hdir,
    resolve_eq_ofNames hw hclean (endsWithName_clean p), namesFrom_clean hw,
    attach_ofNames (isName_of_mem_namesFrom hw) (base_ne_nil p), ofNames_namesFrom_eq_clean hw,
    clean_clean_append hseen]

/-- A resolved path is clean. -/
lemma clean_resolve (p : Text) : clean (resolve workingDir p) = resolve workingDir p := by
  by_cases hp : EndsWithName p
  · rw [resolve_eq_clean hw hclean hp, clean_idem]
  · rw [resolve_of_separator hw hclean hp, clean_idem]

end

end Path

/-! ### Modules at paths -/

namespace SourceModule

variable {t : FileTree} {p q : Text}

/-- What is loaded from a path depends on what the path resolves to. -/
lemma load_congr_resolve (h : Path.resolve t.workingDir p = Path.resolve t.workingDir q)
    (ext : Text) : load t p ext = load t q ext := by
  rw [load, load, h]

/-- A path is resolved element by element. What comes out is the cleaned path as it is seen from the
working directory, unless the path ends with a separator: then its last element is repeated. So the
same module is loaded for two spellings of one path that do not end with a separator. -/
theorem load_eq_of_spelling (hw : Path.isAbsolute t.workingDir = true)
    (hclean : Path.clean t.workingDir = t.workingDir) (p : Text) :
    (∀ r, Path.Resolves t.workingDir p r ↔ r = Path.resolve t.workingDir p) ∧
    (Path.EndsWithName p →
      Path.resolve t.workingDir p = Path.clean (Path.seenFrom t.workingDir p)) ∧
    (¬Path.EndsWithName p → Path.resolve t.workingDir p =
      Path.clean (Path.seenFrom t.workingDir p ++ Path.slash :: Path.base p)) ∧
    ∀ q, Path.EndsWithName p → Path.EndsWithName q →
      Path.clean (Path.seenFrom t.workingDir p) = Path.clean (Path.seenFrom t.workingDir q) →
      ∀ ext, load t p ext = load t q ext := by
  refine ⟨fun r => Path.resolves_iff hw hclean, Path.resolve_eq_clean hw hclean,
    Path.resolve_of_separator hw hclean, ?_⟩
  intro q hp hq hpq ext
  apply load_congr_resolve
  rw [Path.resolve_eq_clean hw hclean hp, Path.resolve_eq_clean hw hclean hq, hpq]

/-- A directory under a path with dots, doubled separators and a parent that does not exist, and
under its absolute path. -/
theorem load_eq_of_spelling_dots : ∃ t p q m,
    t = ({ workingDir := Text.ofString "/w" } : FileTree).write (Text.ofString "/w/a/x.n")
      (Text.ofString "def f\n 1\nend\n") ∧
    Path.isAbsolute t.workingDir = true ∧ Path.clean t.workingDir = t.workingDir ∧
    p = Text.ofString "./b//../a/." ∧ q = Text.ofString "/w/a" ∧
    Path.resolve t.workingDir p = q ∧ m.files = [Text.ofString "/w/a/x.n"] ∧
    load t q (Text.ofString ".n") = .ok m ∧ load t p (Text.ofString ".n") = .ok m := by
  obtain ⟨t, ht⟩ : ∃ t, t = ({ workingDir := Text.ofString "/w" } : FileTree).write
      (Text.ofString "/w/a/x.n") (Text.ofString "def f\n 1\nend\n") := ⟨_, rfl⟩
  obtain ⟨m, hm, hfiles⟩ : ∃ m, load t (Text.ofString "/w/a") (Text.ofString ".n") = .ok m ∧
      m.files = [Text.ofString "/w/a/x.n"] := by
    subst ht
    exact ⟨_, by cbv, by cbv⟩
  have hw : Path.isAbsolute t.workingDir = true := by
    subst ht
    rfl
  have hclean : Path.clean t.workingDir = t.workingDir := by
    subst ht
    rfl
  obtain ⟨hseen, hseen'⟩ : Path.clean (Path.seenFrom t.workingDir (Text.ofString "./b//../a/.")) =
        Text.ofString "/w/a" ∧
      Path.clean (Path.seenFrom t.workingDir (Text.ofString "/w/a")) = Text.ofString "/w/a" := by
    subst ht
    decide
  obtain ⟨-, hresolve, -, hload⟩ :=
    load_eq_of_spelling hw hclean (Text.ofString "./b//../a/.")
  have hp : Path.EndsWithName (Text.ofString "./b//../a/.") := .inr (by decide)
  have hq : Path.EndsWithName (Text.ofString "/w/a") := .inr (by decide)
  refine ⟨t, _, _, m, ht, hw, hclean, rfl, rfl, (hresolve hp).trans hseen, hfiles, hm, ?_⟩
  rw [hload _ hp hq (hseen.trans hseen'.symm), hm]

/-- With a separator at its end, the path of a module does not lead to it: the last element is
looked for beneath the directory that the path names. -/
theorem load_of_separator_repeats : ∃ t m e,
    t = ({ workingDir := Text.ofString "/w" } : FileTree).write (Text.ofString "/w/a/x.n")
      (Text.ofString "def f\n 1\nend\n") ∧
    Path.isAbsolute t.workingDir = true ∧ Path.clean t.workingDir = t.workingDir ∧
    Path.clean (Path.seenFrom t.workingDir (Text.ofString "a/")) =
      Path.clean (Path.seenFrom t.workingDir (Text.ofString "a")) ∧
    Path.resolve t.workingDir (Text.ofString "a/") ≠
      Path.clean (Path.seenFrom t.workingDir (Text.ofString "a/")) ∧
    load t (Text.ofString "a") (Text.ofString ".n") = .ok m ∧
    load t (Text.ofString "a/") (Text.ofString ".n") = .error e ∧
    e.message = Text.ofString "stat /w/a/a: no such file or directory" := by
  obtain ⟨t, ht⟩ : ∃ t, t = ({ workingDir := Text.ofString "/w" } : FileTree).write
      (Text.ofString "/w/a/x.n") (Text.ofString "def f\n 1\nend\n") := ⟨_, rfl⟩
  subst ht
  exact ⟨_, _, _, rfl, rfl, rfl, by decide, by decide, by cbv, by cbv, by decide⟩

end SourceModule

end Frontend
