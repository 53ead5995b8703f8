import Frontend.Proofs.Parser.Append
import Frontend.Proofs.Parser.FirstError

/-!
# Streams one after the other

A stream that is a module of its own can stand in front of another stream: the parser goes through
it as if it were alone, and comes to the second stream with the definitions of the first one. From
there on it does what it does on the second stream alone, and fails where it fails there.

Only whitespace is looked at across the border between the two, and that means nothing.
-/

namespace Frontend.Grammar

open Frontend.Parser

variable {prec : Precedence} {b : Block} {n : Nat} {done : List Definition} {c c₁ : Cursor}

/-- Whitespace in front of an entry means nothing. -/
lemma run_congr_skipWhitespace {c' : Cursor} (h : c.skipWhitespace = c'.skipWhitespace) :
    b.run prec (n + 1) done c = b.run prec (n + 1) done c' := by
  have hskip : ∀ c : Cursor, skipWhitespace c = .ok () c.skipWhitespace := fun _ => rfl
  rw [Block.run_succ, bind_of_ok (hskip c), bind_of_ok (hskip c'), h]

/-! ### A module in front of other tokens -/

/-- The cursor in front of some tokens, behind others that it has gone over. -/
def between (past used rest : List Token) : Cursor := ⟨used.reverse ++ past, rest, 0⟩

lemma between_append (past used ts rest : List Token) :
    between (used.reverse ++ past) ts rest = between past (used ++ ts) rest := by
  simp [between]

lemma exists_between_of_reaches {past ts us us' : List Token}
    (hr : (between past [] (ts ++ us)).Reaches c) (hc : c.rest = us' ++ us) :
    ∃ used, ts = used ++ us' ∧ c = between past used (us' ++ us) := by
  obtain ⟨used, hu, hp, hb⟩ := hr
  rw [hc, ← List.append_assoc] at hu
  refine ⟨used, List.append_cancel_right hu, ?_⟩
  obtain ⟨cpast, crest, cbeyond⟩ := c
  simp only at hc hp hb
  rw [hc, hp, hb]
  rfl

lemma skipWhitespace_between {past ts us : List Token} (h : skip ts = []) :
    (between past [] (ts ++ us)).skipWhitespace = (between past ts us).skipWhitespace := by
  have hover : ∀ past,
      Cursor.skipOver past (ts ++ us) = Cursor.skipOver (ts.reverse ++ past) us := by
    induction ts with
    | nil => intro past; rfl
    | cons t ts ih =>
      intro past
      have hw : t.isWhitespace = true := by
        by_contra hw
        rw [skip_cons_of_not_whitespace (by simpa using hw)] at h
        cases h
      rw [skip_cons_of_whitespace hw] at h
      rw [List.cons_append, Cursor.skipOver, if_pos hw, ih h, List.reverse_cons, List.append_assoc]
      rfl
  simp only [Cursor.skipWhitespace, between, List.reverse_nil, List.nil_append, hover]

/-- An entry of a module is gone through in front of other tokens, and a module behind it as well.
-/
lemma exists_run_of_entry {ts ts₁ us past : List Token} {ds : List Definition}
    (es : List Definition) (hc : c₁.rest = ts₁ ++ us) (hr : (between past [] (ts ++ us)).Reaches c₁)
    (hrun : Block.top.run prec (n + 1) done (between past [] (ts ++ us)) =
      Block.top.run prec n (es.reverse ++ done) c₁)
    (ih : ∀ past, ∃ m, n ≤ m + ts₁.length ∧
      Block.top.run prec n (es.reverse ++ done) (between past [] (ts₁ ++ us)) =
        Block.top.run prec m (ds.reverse ++ (es.reverse ++ done)) (between past ts₁ us))
    (hlt : ts₁.length < ts.length) :
    ∃ m, n + 1 ≤ m + ts.length ∧ Block.top.run prec (n + 1) done (between past [] (ts ++ us)) =
      Block.top.run prec m ((es ++ ds).reverse ++ done) (between past ts us) := by
  obtain ⟨used, rfl, rfl⟩ := exists_between_of_reaches hr hc
  obtain ⟨m, hm, hih⟩ := ih (used.reverse ++ past)
  refine ⟨m, by omega, ?_⟩
  rw [hrun, List.reverse_append, List.append_assoc, ← between_append, ← hih]
  rfl

/-- A module is gone through in front of other tokens, with at most a step of budget for each of its
tokens. -/
lemma run_append {ts rest : List Token} {ds : List Definition} (h : ReadsBlock prec b ts ds rest)
    (hb : b = .top) (hn : ts.length < n) (us past : List Token) (done : List Definition) :
    ∃ m, n ≤ m + ts.length ∧ Block.top.run prec n done (between past [] (ts ++ us)) =
      Block.top.run prec m (ds.reverse ++ done) (between past ts us) := by
  induction h generalizing n done past with
  | closed hne => exact absurd hb hne
  | @finished ts he =>
    obtain ⟨n, rfl⟩ : ∃ k, n = k + 1 := ⟨n - 1, by omega⟩
    exact ⟨n + 1, by omega, run_congr_skipWhitespace (skipWhitespace_between he)⟩
  | @definition b ts ts₁ rest d ds hd _ ih =>
    subst hb
    obtain ⟨n, rfl⟩ : ∃ k, n = k + 1 := ⟨n - 1, by omega⟩
    have hlen := hd.length_lt
    have hskip := length_skip_le ts
    have hd' := hd.append_skip us
    rw [← Cursor.rest_skipWhitespace ⟨past, ts ++ us, 0⟩] at hd'
    obtain ⟨pos, vs, hr⟩ := hd'.exists_cons
    -- the definition is read in front of the tokens that follow, and leaves them
    obtain ⟨c₁, hrun, hc₁⟩ := exists_definition hd'
    have hreach := (Cursor.reaches_skipWhitespace _).trans (reads_of_definition hr hrun).2
    exact exists_run_of_entry [d] hc₁ hreach (run_of_definition hr hrun)
      (fun _ => ih rfl (by omega) _ _) (by omega)
  | @nested b b' ts ts₁ ts₂ ts₃ rest word pos name ds es hw ho hname hds _ _ ihe =>
    subst hb
    obtain ⟨n, rfl⟩ : ∃ k, n = k + 1 := ⟨n - 1, by omega⟩
    have hlen := (hds.suffix.trans hname.suffix).length_le
    have hskip := length_of_skip hw
    have hr := skip_append_of_cons hw us
    rw [← Cursor.rest_skipWhitespace ⟨past, ts ++ us, 0⟩] at hr
    obtain ⟨noName, noNewline, inner, he, rfl⟩ := entry_of_opens ho
    obtain ⟨c₁, hrun, hc₁⟩ := exists_opening noName noNewline inner hr (hname.append us)
      (exists_run_of_readsBlock (hds.append ho.ne_top us))
    obtain ⟨-, -, -, -, hopen⟩ := reads_of_opening hr hrun
    have hreach := (Cursor.reaches_skipWhitespace _).trans hopen
    exact exists_run_of_entry ds hc₁ hreach (run_of_opening he hr hrun)
      (fun _ => ihe rfl (by omega) _ _) (by omega)

/-! ### Two streams -/

/-- Where nothing follows, everything is decided. -/
lemma decides_definitions {F : Frame} (h : F.after = []) (prec : Precedence) (c : Cursor) :
    F.Decides (definitions prec c) := by
  cases hr : definitions prec c with
  | ok ds c' => exact .inl h
  | error e c' => exact ⟨.inl h, (objects_of_error hr).ne_outOfBudget⟩

/-- The frame of a stream behind another one. -/
def precededBy (ts : List Token) (f : Int → Int) (hf : f (-1) = -1) : Frame :=
  ⟨f, hf, ts.reverse, []⟩

lemma cursor_precededBy (ts us : List Token) {f : Int → Int} (hf : f (-1) = -1) :
    (precededBy ts f hf).cursor (.ofTokens us) = between [] ts (us.map (Token.relocate f)) := by
  simp [precededBy, Frame.cursor, between, Cursor.ofTokens]

/-- The definitions of a module and of another stream behind it. -/
lemma definitions_append {ts us : List Token} {ds : List Definition} {f : Int → Int}
    (hf : f (-1) = -1) (h : ReadsBlock prec .top ts ds []) (hne : us ≠ []) :
    definitions prec (Cursor.ofTokens (ts ++ us.map (Token.relocate f))) =
      (precededBy ts f hf).result (fun es => ds ++ es.map (Definition.relocate f))
        (definitions prec (Cursor.ofTokens us)) := by
  have hlen : (ts ++ us.map (Token.relocate f)).length = ts.length + us.length := by simp
  obtain ⟨k, hk, hrun⟩ := run_append (n := 6 * (ts ++ us.map (Token.relocate f)).length + 6) h rfl
    (by omega) (us.map (Token.relocate f)) [] []
  have hle : 6 * us.length + 6 ≤ k := by omega
  obtain ⟨-, -, hframed⟩ := framed_run (F := precededBy ts f hf) .top _ k hle ds [] (.ofTokens us)
    (.inr (.inr hne))
  have hdec := decides_definitions (F := precededBy ts f hf) rfl prec (.ofTokens us)
  have hlast := hframed hdec
  rw [cursor_precededBy] at hlast
  rw [List.append_nil] at hrun
  exact hrun.trans hlast

/-- What a module and a stream behind it are parsed as, if the second one is parsed alone with some
result. -/
def joined (whole : Span) (ds : List Definition) (f : Int → Int) :
    Except SyntaxError Module → Except SyntaxError Module
  | .ok m    => .ok ⟨whole, ds ++ m.defs.map (Definition.relocate f)⟩
  | .error e => .error (e.relocate f)

/-- A module in front of another stream, whose offsets have been moved. -/
theorem parse_append_relocate {ts us : List Token} {m : Module} {f : Int → Int} (hf : f (-1) = -1)
    (h : parse prec ts = .ok m) :
    parse prec (ts ++ us.map (Token.relocate f)) =
      joined (.ofTokens (ts ++ us.map (Token.relocate f))) m.defs f (parse prec us) := by
  have hreads := reads_of_parse h
  rcases eq_or_ne us [] with rfl | hne
  · have hnil : parse prec [] = .ok ⟨.ofTokens [], []⟩ := rfl
    rw [hnil, List.map_nil, List.append_nil, parse_of_reads hreads, joined, List.map_nil,
      List.append_nil]
  · rw [parse, parse, definitions_append hf hreads hne]
    cases definitions prec (Cursor.ofTokens us) with
    | ok ds c => rfl
    | error e c => rfl

/-- Moved tokens are parsed as what is moved in the same way. -/
lemma parse_map_relocate (prec : Precedence) {f : Int → Int} (hf : f (-1) = -1) (ts : List Token) :
    parse prec (ts.map (Token.relocate f)) =
      joined (.ofTokens (ts.map (Token.relocate f))) [] f (parse prec ts) :=
  @parse_append_relocate prec [] ts _ f hf rfl

end Frontend.Grammar
