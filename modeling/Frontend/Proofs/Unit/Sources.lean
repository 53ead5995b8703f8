import Frontend.Proofs.Tree.Anchors
import Frontend.Proofs.Unit.Independence

/-!
# Offsets in the source of a unit

The source of a unit is what its files hold, one file after the other. A token of the unit stands
at the bytes that spell it, both in its file and in the source, and its offset is located in that
file. With that the nodes of a parsed unit, which start and end at its tokens, point at the bytes
that they were read from.
-/

namespace Frontend

/-- Every token of a text that is cut into pieces is spelled by one of them. -/
lemma Lexer.exists_spells_of_mem_place {text rest : Text} {ls : List Lexeme} (h : Cut text ls rest)
    {pos : Int} {t : Token} (ht : t ∈ place pos ls) : ∃ before piece behind,
      text = before ++ (piece ++ behind) ∧ t.pos = pos + before.length ∧
      Spells piece (some t.kind) behind := by
  induction h generalizing pos with
  | nil => cases ht
  | @cons p u rest kind ls hp hs ih =>
    have hlater : t ∈ place (pos + p.length) ls → ∃ before piece behind,
        p ++ u = before ++ (piece ++ behind) ∧ t.pos = pos + before.length ∧
        Spells piece (some t.kind) behind := by
      intro ht
      obtain ⟨before, piece, behind, rfl, hpos, hspell⟩ := ih ht
      refine ⟨p ++ before, piece, behind, (List.append_assoc ..).symm, ?_, hspell⟩
      rw [hpos, List.length_append]
      push_cast
      ring
    cases kind with
    | none => exact hlater ht
    | some kind =>
      rcases List.mem_cons.1 ht with rfl | ht
      · exact ⟨[], p, u, rfl, by simp, hp⟩
      · exact hlater ht

namespace CompilationUnit

/-- The bytes of some files, one file after the other. -/
def source (files : List (Text × Text)) : Text := files.flatMap Prod.snd

/-- A kind of token is spelled at a byte of a file of a unit. The offset is that of the byte in the
source, the source has the same spelling there, and the offset is located at the byte. -/
structure SpelledAt (u : CompilationUnit) (files : List (Text × Text)) (kind : Kind) (p : Int)
    (path text : Text) (k : Nat) : Prop where
  file : ∃ fs gs, files = fs ++ (path, text) :: gs ∧ p = ((source fs).length + k : Nat)
  spells : ∃ piece behind, text.drop k = piece ++ behind ∧ Lexer.Spells piece (some kind) behind ∧
    piece <+: (source files).drop p.toNat
  located : u.files.at? p = some (.ofByte path text k)

/-- A kind of token is spelled at an offset of the source of a unit. -/
def Stands (u : CompilationUnit) (files : List (Text × Text)) (kind : Kind) (p : Int) : Prop :=
  ∃ path text k, SpelledAt u files kind p path text k

variable {prec : Precedence} {u u' : CompilationUnit} {files : List (Text × Text)}
  {file : Text × Text} {kind : Kind} {p : Int} {path text : Text} {k : Nat}

lemma source_append (fs gs : List (Text × Text)) : source (fs ++ gs) = source fs ++ source gs :=
  List.flatMap_append

/-- A file that is added to a unit starts where the source ends. -/
lemma length_files_of_ofFiles (h : ofFiles files = .ok u) :
    u.files.length = (source files).length := by
  induction files using List.reverseRecOn generalizing u with
  | nil =>
    obtain rfl : {} = u := Except.ok.inj h
    rfl
  | append_singleton files file ih =>
    obtain ⟨u₀, hu₀, he⟩ := ofFiles_append_eq_ok.1 h
    obtain ⟨ts, -, rfl⟩ := exists_tokens_of_extend he
    rw [SourceFiles.length_add, ih hu₀, source_append, List.length_append]
    simp [source]

/-- What is spelled at a byte is so inside of the source. -/
lemma SpelledAt.bounds (h : SpelledAt u files kind p path text k) :
    0 ≤ p ∧ p < (source files).length := by
  obtain ⟨⟨fs, gs, rfl, rfl⟩, ⟨piece, behind, hd, hs, hpre⟩, -⟩ := h
  have hpos := List.length_pos_of_ne_nil (Lexer.ne_nil_of_spells hs)
  have hle := hpre.length_le
  rw [List.length_drop, Int.toNat_natCast] at hle
  omega

/-- What is spelled in the files so far stays where it is when a file is added. -/
lemma SpelledAt.extend (h : SpelledAt u files kind p path text k) (hu : ofFiles files = .ok u)
    (he : u.extend file = .ok u') : SpelledAt u' (files ++ [file]) kind p path text k := by
  obtain ⟨h₀, hlt⟩ := h.bounds
  obtain ⟨ts, -, rfl⟩ := exists_tokens_of_extend he
  obtain ⟨⟨fs, gs, hfiles, hp⟩, ⟨piece, behind, hd, hs, hpre⟩, hloc⟩ := h
  refine ⟨⟨fs, gs ++ [file], by rw [hfiles]; simp, hp⟩, ⟨piece, behind, hd, hs, ?_⟩, ?_⟩
  · rw [source_append, List.drop_append_of_le_length (by omega)]
    exact hpre.trans (List.prefix_append _ _)
  · rw [SourceFiles.at?_add_of_lt _ _ h₀ (by rw [length_files_of_ofFiles hu]; exact hlt), hloc]

/-- The tokens of a file that is added to a unit are spelled in it. -/
lemma spelledAt_of_tokens (hu : ofFiles files = .ok u) {ts : List Token}
    (ht : Lexer.tokens text 0 = .ok ts) (us : List Token) {t : Token} (hmem : t ∈ ts) :
    ∃ k, SpelledAt ⟨u.files.add path text, us⟩ (files ++ [(path, text)]) t.kind
      (t.pos + u.files.length) path text k := by
  obtain ⟨ls, hc, rfl⟩ := Lexer.exists_cut_of_tokens ht
  obtain ⟨before, piece, behind, rfl, hpos, hs⟩ := Lexer.exists_spells_of_mem_place hc hmem
  have hlen := length_files_of_ofFiles hu
  have hp : t.pos + u.files.length = ((source files).length + before.length : Nat) := by
    rw [hpos, hlen]
    push_cast
    ring
  refine ⟨before.length, ⟨files, [], rfl, hp⟩, ⟨piece, behind, List.drop_left, hs, ?_⟩, ?_⟩
  · have hsource : source (files ++ [(path, before ++ (piece ++ behind))]) =
        source files ++ before ++ (piece ++ behind) := by
      rw [source_append]
      simp [source]
    rw [hp, hsource, Int.toNat_natCast, ← List.length_append, List.drop_left]
    exact List.prefix_append _ _
  · rw [hpos, zero_add]
    exact u.files.at?_add path (by simp)

/-- Every token of a unit stands in its source. -/
theorem stands_of_mem (hu : ofFiles files = .ok u) :
    ∀ t ∈ u.tokens, Stands u files t.kind t.pos := by
  induction files using List.reverseRecOn generalizing u with
  | nil =>
    obtain rfl : {} = u := Except.ok.inj hu
    simp
  | append_singleton files file ih =>
    obtain ⟨u₀, hu₀, he⟩ := ofFiles_append_eq_ok.1 hu
    intro t ht
    obtain ⟨ts, hts, hu'⟩ := exists_tokens_of_extend he
    rw [hu'] at ht
    rcases List.mem_append.1 ht with hold | hnew
    · obtain ⟨path, text, k, h⟩ := ih hu₀ t hold
      exact ⟨path, text, k, h.extend hu₀ he⟩
    · obtain ⟨v, hv, rfl⟩ := List.mem_map.1 hnew
      obtain ⟨k, h⟩ := spelledAt_of_tokens hu₀ hts u.tokens hv
      rw [hu'] at h ⊢
      exact ⟨file.1, file.2, k, h⟩

lemma spelled_of_stands {ts : List Token} (h : ∀ t ∈ ts, Stands u files t.kind t.pos) :
    Lexer.Spelled ts := by
  intro t ht
  obtain ⟨path, text, k, hs⟩ := h t ht
  obtain ⟨piece, behind, -, hspells, -⟩ := hs.spells
  exact Lexer.isSpelled_of_spells hspells

/-- The nodes of a parsed unit point at the right bytes of its source: each of them starts at the
spelling of its first token and ends at the offset that its kind says, and the `def` of every
definition is located in the file that it stands in. -/
theorem parse_anchored {m : Module} (hu : ofFiles files = .ok u) (hm : u.parse prec = .ok m) :
    (∀ d ∈ m.toNode.children, d.Everywhere (Node.Anchored (Stands u files) u.tokens)) ∧
      ∀ d ∈ m.defs, ∃ path text k, SpelledAt u files .defWord d.start path text k := by
  have hstands := stands_of_mem hu
  have hlegible : Grammar.Legible (Stands u files) u.tokens :=
    ⟨hstands, spelled_of_stands hstands⟩
  have hdefs := (Grammar.reads_of_parse (parse_eq_ok.1 hm)).anchored hlegible List.suffix_rfl
  refine ⟨List.forall_mem_map.2 hdefs, fun d hd => ?_⟩
  have hroot := hdefs d hd d.toNode .root
  obtain ⟨span, isMain, proto, body, className, implName⟩ := d
  cases body with
  | nil => exact hroot.1
  | cons x xs => exact hroot.1

/-- A method that goes on in the next file, with an operator, a call, parentheses and a message, and
a bodyless one behind it. -/
theorem parse_anchored_across : ∃ files u m,
    files = [(Text.ofString "a", Text.ofString "class A\n def f(x Int)\n  y = -x + g(1,"),
      (Text.ofString "b", Text.ofString " (\"s\")).k()\n end\n def h\nend")] ∧
    ofFiles files = .ok u ∧ u.parse .builtin = .ok m ∧ m.defs.length = 2 ∧
    (∀ d ∈ m.toNode.children, d.Everywhere (Node.Anchored (Stands u files) u.tokens)) ∧
      ∀ d ∈ m.defs, ∃ path text k, SpelledAt u files .defWord d.start path text k := by
  obtain ⟨files, hf⟩ : ∃ files, files =
    [(Text.ofString "a", Text.ofString "class A\n def f(x Int)\n  y = -x + g(1,"),
      (Text.ofString "b", Text.ofString " (\"s\")).k()\n end\n def h\nend")] := ⟨_, rfl⟩
  obtain ⟨u, hu, m, hm, hl⟩ : ∃ u, ofFiles files = .ok u ∧
      ∃ m, u.parse .builtin = .ok m ∧ m.defs.length = 2 := by
    subst hf
    exact ⟨_, by cbv, _, by rfl, by rfl⟩
  exact ⟨files, u, m, hf, hu, hm, hl, parse_anchored hu hm⟩

end CompilationUnit

end Frontend
