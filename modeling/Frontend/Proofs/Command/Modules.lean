import Frontend.Proofs.FileTree.Paths
import Frontend.SourceModule

/-!
# Source modules

What loading a module gives: the extension it was asked for, the resolved path, and source files
with absolute paths. A path that can be a source file of a module is compared with clean paths only,
so where there is one, loading the module again finds it at the same path.

What is said about a module that is not in order is never mistaken for the line that says that it
is: it starts with the absolute path of one of its files, or with a word of its own.
-/

namespace Frontend

lemma Text.pairwise_sorted (ts : List Text) : (Text.sorted ts).Pairwise (· ≤ ·) := by
  refine (List.pairwise_mergeSort ?_ ?_ ts).imp fun h => of_decide_eq_true h
  · intro a b c hab hbc
    exact decide_eq_true (List.le_trans (of_decide_eq_true hab) (of_decide_eq_true hbc))
  · intro a b
    simpa using List.le_total a b

namespace SourceModule

variable {t : FileTree} {path ext file : Text} {m : SourceModule}

/-! ### Loading -/

/-- A module is at the path that it was asked for, seen from the working directory. -/
lemma path_of_load (h : load t path ext = .ok m) :
    m.path = Path.resolve t.workingDir path ∧ m.ext = ext := by
  rw [load] at h
  cases hs : t.stat (Path.resolve t.workingDir path) with
  | error e => simp [hs] at h
  | ok entry =>
    cases entry <;> simp only [hs, Except.ok.injEq] at h <;> subst h <;> exact ⟨rfl, rfl⟩

/-- The source files of a module are given by absolute paths. -/
lemma isAbsolute_of_load (ht : Path.isAbsolute t.workingDir = true)
    (h : load t path ext = .ok m) (hf : file ∈ m.files) : Path.isAbsolute file = true := by
  have hfull := Path.isAbsolute_resolve ht path
  rw [load] at h
  cases hs : t.stat (Path.resolve t.workingDir path) with
  | error e => simp [hs] at h
  | ok entry =>
    cases entry with
    | file content =>
      simp only [hs, Except.ok.injEq] at h
      subst h
      rw [List.mem_singleton.1 hf]
      exact hfull
    | directory es =>
      simp only [hs, Except.ok.injEq] at h
      subst h
      simp only [sourcesIn, Text.sorted, List.mem_mergeSort, List.mem_map] at hf
      obtain ⟨e, -, rfl⟩ := hf
      exact Path.isAbsolute_join hfull _

/-- Only a module with a clean path has source files to ask about. -/
lemma clean_of_isSource (hm : Path.isAbsolute m.path = true) (h : m.isSource file = true) :
    Path.clean m.path = m.path := by
  have hclean : ∀ p, Path.clean p = m.path → Path.clean m.path = m.path := by
    intro p hp
    rw [← hp] at hm ⊢
    exact Path.clean_clean hm
  rw [isSource] at h
  by_cases hdir : m.path = m.dir
  · rw [if_pos hdir, Bool.and_eq_true, decide_eq_true_eq, ← hdir] at h
    exact hclean _ h.1
  · rw [if_neg hdir, decide_eq_true_eq] at h
    exact hclean _ h

end SourceModule

/-! ### Messages -/

/-- A text starts like the line that says that something is in order. -/
def BeginsOk (s : Text) : Prop := Text.ofString "ok" <+: s

instance (s : Text) : Decidable (BeginsOk s) := inferInstanceAs (Decidable (_ <+: _))

section

variable {fs : SourceFiles} {u u' : CompilationUnit} {s : Text} {failure : Failure}

lemma beginsOk_of_append {s s' : Text} (hs : 2 ≤ s.length) (h : BeginsOk (s ++ s')) : BeginsOk s :=
  List.prefix_of_prefix_length_le h (List.prefix_append s s') hs

lemma not_beginsOk_of_isAbsolute (h : Path.isAbsolute s = true) (s' : Text) :
    ¬BeginsOk (s ++ s') := by
  obtain ⟨r, rfl⟩ := Path.exists_cons_of_isAbsolute h
  intro hs
  obtain ⟨hb, -⟩ := List.cons_prefix_cons.1 hs
  revert hb
  decide

lemma not_beginsOk_lexCause (cause : LexCause) : ¬BeginsOk cause.message := by
  intro h
  cases cause with
  | outOfRange digits =>
    rw [LexCause.message, List.append_assoc] at h
    exact absurd (beginsOk_of_append (by decide) h) (by decide)
  | unterminated => exact absurd h (by decide)
  | badLiteral literal =>
    exact absurd (beginsOk_of_append (by decide) h) (by decide)
  | unexpected code =>
    exact absurd (beginsOk_of_append (by decide) h) (by decide)

lemma not_beginsOk_cause (cause : Cause) : ¬BeginsOk cause.message := by
  cases cause <;> decide

lemma not_beginsOk_of_read {t : FileTree} {path : Text} (h : t.read path = .error failure) :
    ¬BeginsOk failure.message := by
  intro hs
  rw [FileTree.read] at h
  split at h
  case h_1 => cases h
  case h_2 =>
    obtain rfl := Except.error.inj h
    rw [Failure.message, List.append_assoc, List.append_assoc] at hs
    exact absurd (beginsOk_of_append (by decide) hs) (by decide)
  case h_3 =>
    obtain rfl := Except.error.inj h
    rw [Failure.message, List.append_assoc, List.append_assoc] at hs
    exact absurd (beginsOk_of_append (by decide) hs) (by decide)

/-- All files have absolute paths. -/
def SourceFiles.Absolute (fs : SourceFiles) : Prop :=
  ∀ file ∈ fs.files, Path.isAbsolute file.path = true

lemma SourceFiles.Absolute.of_at? (h : fs.Absolute) {p : Int} {l : Location}
    (hl : fs.at? p = some l) : Path.isAbsolute l.path = true := by
  have hmem : ∀ file, fs.fileAt? p = some file → file ∈ fs.files := by
    intro file hfile
    rw [fileAt?] at hfile
    split at hfile
    case h_1 found hfound =>
      obtain rfl := Option.some.inj hfile
      exact List.mem_reverse.1 (List.mem_of_find?_eq_some hfound)
    case h_2 => exact List.mem_of_mem_head? hfile
  rw [at?, locate?] at hl
  split_ifs at hl
  cases hfile : fs.fileAt? p with
  | none => simp [hfile] at hl
  | some file =>
    simp only [hfile, Option.some.injEq] at hl
    rw [← hl]
    exact h file (hmem file hfile)

lemma SourceFiles.Absolute.not_beginsOk_locate (h : fs.Absolute) (hf : ¬BeginsOk failure.message) :
    ¬BeginsOk (fs.locate failure).message := by
  rw [locate]
  split
  · exact hf
  · split_ifs
    · exact hf
    · split
      case h_1 l hl =>
        rw [Failure.message, Location.render]
        have hpath := h.of_at? hl
        split_ifs <;> simp only [List.append_assoc] <;> exact not_beginsOk_of_isAbsolute hpath _
      case h_2 => exact hf

/-- Files with absolute paths stay such, and none of them is refused in the words of success. -/
lemma CompilationUnit.absolute_of_addFiles {t : FileTree} {paths : List Text}
    {r : Option Failure} (hu : u.files.Absolute)
    (hp : ∀ path ∈ paths, Path.isAbsolute path = true) (h : addFiles t paths u = (u', r)) :
    u'.files.Absolute ∧ ∀ failure ∈ r, ¬BeginsOk failure.message := by
  induction paths generalizing u with
  | nil =>
    obtain ⟨rfl, rfl⟩ := Prod.mk.inj h
    exact ⟨hu, by simp⟩
  | cons path paths ih =>
    rw [List.forall_mem_cons] at hp
    rw [addFiles, addInput] at h
    cases hr : t.read path with
    | error e =>
      simp only [hr] at h
      obtain ⟨rfl, rfl⟩ := Prod.mk.inj h
      refine ⟨hu, ?_⟩
      rintro failure ⟨⟩
      exact not_beginsOk_of_read hr
    -- a file that is read is added even if its tokens are refused
    | ok text =>
      have hfiles : (u.files.add path text).Absolute := by
        intro file hfile
        rcases List.mem_append.1 hfile with hold | hnew
        · exact hu file hold
        · rw [List.mem_singleton.1 hnew]
          exact hp.1
      cases ht : Lexer.tokens text u.files.length with
      | ok ts =>
        simp only [hr, add, ht] at h
        exact ih hfiles hp.2 h
      | error e =>
        simp only [hr, add, ht] at h
        obtain ⟨rfl, rfl⟩ := Prod.mk.inj h
        refine ⟨hfiles, ?_⟩
        rintro failure ⟨⟩
        exact hfiles.not_beginsOk_locate (not_beginsOk_lexCause e.cause)

lemma CompilationUnit.not_beginsOk_of_parse {prec : Precedence} (hu : u.files.Absolute)
    (h : u.parse prec = .error failure) : ¬BeginsOk failure.message := by
  rw [parse] at h
  cases hp : Frontend.parse prec u.tokens with
  | ok m => simp [hp] at h
  | error e =>
    simp only [hp, Except.error.injEq] at h
    rw [← h]
    exact hu.not_beginsOk_locate (not_beginsOk_cause e.cause)

/-- No module is refused in the words that say that it is in order. -/
theorem SourceModule.not_beginsOk_of_parse {t : FileTree} {m : SourceModule} {prec : Precedence}
    (hm : ∀ file ∈ m.files, Path.isAbsolute file = true)
    (h : (m.parse t prec).2 = .error failure) : ¬BeginsOk failure.message := by
  have hnone : (({} : CompilationUnit).files).Absolute := by simp [SourceFiles.Absolute]
  rw [parse] at h
  generalize hadd : CompilationUnit.addFiles t m.files {} = added at h
  obtain ⟨u, r⟩ := added
  obtain ⟨hfiles, hr⟩ := CompilationUnit.absolute_of_addFiles hnone hm hadd
  cases r with
  | none => exact CompilationUnit.not_beginsOk_of_parse hfiles h
  | some e =>
    obtain rfl : e = failure := Except.error.inj h
    exact hr e rfl

end

end Frontend
