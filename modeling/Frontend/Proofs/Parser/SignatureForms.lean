import Frontend.Proofs.Parser.FirstError

/-!
# The forms of signatures

The grammar of signatures reads from the front and leaves the rest. Here is what it reads, as forms
that say how a signature is laid out from its first token to its last: between parentheses, around
the parameters and their commas any whitespace may stand, elsewhere a blank run at most, and one in
front of an arrow if one stands behind it.

A segment of a token stream is parsed as a signature exactly if it has such a form, so that there is
at most one that starts at a given token, and it is read in one way only.
-/

namespace Frontend.Grammar

/-! ### Gaps -/

/-- A blank run or nothing. -/
def Blank (ts : List Token) : Prop := ts = [] ∨ ∃ pos, ts = [⟨.space, pos⟩]

/-- Any number of blank runs and line ends. -/
def White (ts : List Token) : Prop := ∀ t ∈ ts, t.isWhitespace = true

section Gaps

variable {gap ws ts us : List Token} {t : Token}

lemma exists_blank (h : skipBlank ts = t :: us) : ∃ gap, Blank gap ∧ ts = gap ++ t :: us := by
  rcases skipBlank_eq_cons h with rfl | ⟨pos, rfl⟩
  · exact ⟨[], .inl rfl, rfl⟩
  · exact ⟨[⟨.space, pos⟩], .inr ⟨pos, rfl⟩, rfl⟩

lemma Blank.skipBlank_append (h : Blank gap) (ht : t.kind ≠ .space) (us : List Token) :
    skipBlank (gap ++ t :: us) = t :: us := by
  rcases h with rfl | ⟨pos, rfl⟩
  · obtain ⟨kind, pos⟩ := t
    cases kind with
    | space => exact absurd rfl ht
    | _ => rfl
  · rfl

lemma exists_white (h : skip ts = t :: us) : ∃ ws, White ws ∧ ts = ws ++ t :: us := by
  obtain ⟨ws, hts, hw⟩ := exists_whitespace ts
  exact ⟨ws, hw, h ▸ hts⟩

lemma White.skip_append (h : White ws) (ht : t.isWhitespace = false) (us : List Token) :
    skip (ws ++ t :: us) = t :: us := by
  rw [skip_append_of_whitespace h, skip_cons_of_not_whitespace ht]

end Gaps

/-! ### Forms -/

/-- A name and its type. -/
inductive ParamForm : List Token → Param → Prop
  | mk {gap : List Token} {name type : Text} (pos pos' : Int) (hg : Blank gap) :
      ParamForm (⟨.identifier name, pos⟩ :: (gap ++ [⟨.constant type, pos'⟩]))
        ⟨name, some (.named type)⟩

/-- Parameters with commas between them. -/
inductive ParamsForm : List Token → List Param → Prop
  | last {ts : List Token} {p : Param} (hp : ParamForm ts p) : ParamsForm ts [p]
  | cons {ts ws ws' us : List Token} {p : Param} {ps : List Param} (pos : Int)
      (hp : ParamForm ts p) (hw : White ws) (hw' : White ws') (hps : ParamsForm us ps) :
      ParamsForm (ts ++ (ws ++ ⟨.comma, pos⟩ :: (ws' ++ us))) (p :: ps)

/-- Parentheses around parameters, or around none. -/
inductive ParensForm : List Token → List Param → Prop
  | empty {ws : List Token} (pos pos' : Int) (hw : White ws) :
      ParensForm (⟨.leftParen, pos⟩ :: (ws ++ [⟨.rightParen, pos'⟩])) []
  | full {ws ts ws' : List Token} {ps : List Param} (pos pos' : Int) (hw : White ws)
      (hps : ParamsForm ts ps) (hw' : White ws') :
      ParensForm (⟨.leftParen, pos⟩ :: (ws ++ (ts ++ (ws' ++ [⟨.rightParen, pos'⟩])))) ps

/-- What follows the parameters. -/
inductive ResultForm : List Token → Option BaseType → Prop
  | newline (pos : Int) : ResultForm [⟨.newline, pos⟩] none
  | spaceNewline (pos pos' : Int) : ResultForm [⟨.space, pos⟩, ⟨.newline, pos'⟩] none
  | tight (type : Text) (pos pos' : Int) :
      ResultForm [⟨.arrow, pos⟩, ⟨.constant type, pos'⟩] (some (.named type))
  | spaced {gap : List Token} (type : Text) (pos pos' pos'' : Int) (hg : Blank gap) :
      ResultForm (⟨.space, pos⟩ :: ⟨.arrow, pos'⟩ :: (gap ++ [⟨.constant type, pos''⟩]))
        (some (.named type))

/-- The signature behind the word `def`. It is never that of an operator. -/
inductive PrototypeForm : List Token → Prototype → Prop
  | bare {gap : List Token} (name : Text) (pos pos' pos'' : Int) (hg : Blank gap) :
      PrototypeForm (⟨.space, pos⟩ :: ⟨.identifier name, pos'⟩ :: (gap ++ [⟨.newline, pos''⟩]))
        ⟨name, [], none, false, 0⟩
  | parens {gap ts us : List Token} (name : Text) {ps : List Param} {r : Option BaseType}
      (pos pos' : Int) (hg : Blank gap) (hps : ParensForm ts ps) (hr : ResultForm us r) :
      PrototypeForm (⟨.space, pos⟩ :: ⟨.identifier name, pos'⟩ :: (gap ++ (ts ++ us)))
        ⟨name, ps, r, false, 0⟩

lemma PrototypeForm.ne_nil {ts : List Token} {p : Prototype} (h : PrototypeForm ts p) :
    ts ≠ [] := by
  cases h with
  | bare | parens => exact List.cons_ne_nil _ _

/-! ### What is read has a form -/

section Reading

variable {ts us rest : List Token}

lemma ReadsParams.exists_form {ps : List Param} (h : ReadsParams ts ps rest) :
    ∃ ws seg ws' pos, White ws ∧ ParamsForm seg ps ∧ White ws' ∧
      ts = ws ++ (seg ++ (ws' ++ ⟨.rightParen, pos⟩ :: rest)) := by
  induction h with
  | @last _ _ _ _ name type pos pos' pos'' hn ht hr =>
    obtain ⟨ws, hw, rfl⟩ := exists_white hn
    obtain ⟨gap, hg, rfl⟩ := exists_blank ht
    obtain ⟨ws', hw', rfl⟩ := exists_white hr
    exact ⟨ws, _, ws', pos'', hw, .last (.mk pos pos' hg), hw', by simp⟩
  | @cons _ _ _ _ _ _ name type pos pos' pos'' hn ht hc _ ih =>
    obtain ⟨ws, hw, rfl⟩ := exists_white hn
    obtain ⟨gap, hg, rfl⟩ := exists_blank ht
    obtain ⟨before, hb, rfl⟩ := exists_white hc
    obtain ⟨behind, seg, ws', posr, hbehind, hseg, hw', rfl⟩ := ih
    exact ⟨ws, _, ws', posr, hw, .cons pos'' (.mk pos pos' hg) hb hbehind hseg, hw', by simp⟩

lemma ReadsResult.exists_form {r : Option BaseType} (h : ReadsResult ts r rest) :
    ∃ seg, ResultForm seg r ∧ ts = seg ++ rest := by
  cases h with
  | none hn =>
    rcases skipBlank_eq_cons hn with rfl | ⟨pos, rfl⟩
    · exact ⟨_, .newline _, rfl⟩
    · exact ⟨_, .spaceNewline _ _, rfl⟩
  | tight => exact ⟨_, .tight _ _ _, rfl⟩
  | @spaced _ _ type pos pos' pos'' ht =>
    obtain ⟨gap, hg, rfl⟩ := exists_blank ht
    exact ⟨_, .spaced type pos pos' pos'' hg, by simp⟩

lemma ReadsPrototype.exists_form {p : Prototype} (h : ReadsPrototype ts p rest) :
    ∃ seg, PrototypeForm seg p ∧ ts = seg ++ rest := by
  cases h with
  | @bare _ _ name pos pos' pos'' hn =>
    obtain ⟨gap, hg, rfl⟩ := exists_blank hn
    exact ⟨_, .bare name pos pos' pos'' hg, by simp⟩
  | @empty _ _ _ _ name _ pos pos' posl posr hl hr ht =>
    obtain ⟨gap, hg, rfl⟩ := exists_blank hl
    obtain ⟨ws, hw, rfl⟩ := exists_white hr
    obtain ⟨seg, hseg, rfl⟩ := ht.exists_form
    exact ⟨_, .parens name pos pos' hg (.empty posl posr hw) hseg, by simp⟩
  | @full _ _ _ _ name _ _ pos pos' posl hl hp ht =>
    obtain ⟨gap, hg, rfl⟩ := exists_blank hl
    obtain ⟨ws, params, ws', posr, hw, hps, hw', rfl⟩ := hp.exists_form
    obtain ⟨seg, hseg, rfl⟩ := ht.exists_form
    exact ⟨_, .parens name pos pos' hg (.full posl posr hw hps hw') hseg, by simp⟩

/-! ### What has a form is read -/

lemma ParamsForm.reads {ps : List Param} (h : ParamsForm ts ps) {ws ws' : List Token}
    (hw : White ws) (hw' : White ws') (pos : Int) (rest : List Token) :
    ReadsParams (ws ++ (ts ++ (ws' ++ ⟨.rightParen, pos⟩ :: rest))) ps rest := by
  induction h generalizing ws with
  | last hp =>
    obtain ⟨_, _, hg⟩ := hp
    simp only [List.cons_append, List.append_assoc, List.nil_append]
    exact .last (hw.skip_append rfl _) (hg.skipBlank_append (by simp) _) (hw'.skip_append rfl _)
  | cons _ hp hb hbehind _ ih =>
    obtain ⟨_, _, hg⟩ := hp
    simp only [List.cons_append, List.append_assoc, List.nil_append]
    exact .cons (hw.skip_append rfl _) (hg.skipBlank_append (by simp) _) (hb.skip_append rfl _)
      (ih hbehind)

lemma ResultForm.reads {r : Option BaseType} (h : ResultForm ts r) (rest : List Token) :
    ReadsResult (ts ++ rest) r rest := by
  cases h with
  | newline => exact .none rfl
  | spaceNewline => exact .none rfl
  | tight => exact .tight
  | spaced _ _ _ _ hg =>
    simp only [List.cons_append, List.append_assoc, List.nil_append]
    exact .spaced (hg.skipBlank_append (by simp) _)

lemma PrototypeForm.reads {p : Prototype} (h : PrototypeForm ts p) (rest : List Token) :
    ReadsPrototype (ts ++ rest) p rest := by
  cases h with
  | bare _ _ _ _ hg =>
    simp only [List.cons_append, List.append_assoc, List.nil_append]
    exact .bare (hg.skipBlank_append (by simp) _)
  | parens _ _ _ hg hps hr =>
    cases hps with
    | empty _ _ hw =>
      simp only [List.cons_append, List.append_assoc, List.nil_append]
      exact .empty (hg.skipBlank_append (by simp) _) (hw.skip_append rfl _) (hr.reads rest)
    | full _ _ hw hps hw' =>
      simp only [List.cons_append, List.append_assoc, List.nil_append]
      exact .full (hg.skipBlank_append (by simp) _) (hps.reads hw hw' _ _) (hr.reads rest)

/-- Tokens start with at most one signature. -/
theorem PrototypeForm.unique {p q : Prototype} {rest' : List Token} (h : PrototypeForm ts p)
    (h' : PrototypeForm us q) (heq : ts ++ rest = us ++ rest') : ts = us ∧ p = q := by
  obtain ⟨c, hc, hrest⟩ := reader_prototype.complete (c := .ofTokens (ts ++ rest)) (h.reads rest)
  obtain ⟨c', hc', hrest'⟩ :=
    reader_prototype.complete (c := .ofTokens (ts ++ rest)) (heq ▸ h'.reads rest')
  cases hc.symm.trans hc'
  obtain rfl := hrest.symm.trans hrest'
  exact ⟨List.append_cancel_right heq, rfl⟩

end Reading

/-! ### Segments of a stream -/

section Segments

variable {ts : List Token} {i j : Nat} {p : Prototype}

/-- A segment that is not empty stands in front of the tokens behind it. -/
lemma drop_eq_segment_append (hne : (ts.take j).drop i ≠ []) :
    ts.drop i = (ts.take j).drop i ++ ts.drop j := by
  have hi : i ≤ (ts.take j).length := by
    rw [Ne, List.drop_eq_nil_iff] at hne
    omega
  conv_lhs => rw [← List.take_append_drop j ts]
  rw [List.drop_append_of_le_length hi]

/-- A signature leaves the cursor behind the segment that it was read from. -/
lemma exists_segment_of_prototype {c : Cursor}
    (h : Parser.prototype ((Cursor.ofTokens ts).seek i) = .ok p c) :
    ∃ j ≤ ts.length, c = (Cursor.ofTokens ts).seek j ∧ PrototypeForm ((ts.take j).drop i) p := by
  obtain ⟨hread, hreach⟩ := reader_prototype.sound h
  obtain ⟨seg, hseg, hts⟩ := hread.exists_form
  have hc := hreach.eq_seek
  generalize c.index = j at hc
  subst hc
  -- The segment is not empty, so it starts in the stream and the cursor does not pass its end.
  have hts : ts.drop i = seg ++ ts.drop j := hts
  have hpos : 0 < seg.length := List.length_pos_of_ne_nil hseg.ne_nil
  have hlen := congrArg List.length hts
  rw [List.length_append, List.length_drop, List.length_drop] at hlen
  have hj : j ≤ ts.length := by
    obtain ⟨-, -, -, hbeyond⟩ := hreach
    have hbeyond : j - ts.length = i - ts.length := hbeyond
    omega
  refine ⟨j, hj, rfl, ?_⟩
  have hsub : j - i = seg.length := by omega
  rwa [List.drop_take, hts, hsub, List.take_left]

lemma prototype_of_segment (hj : j ≤ ts.length) (h : PrototypeForm ((ts.take j).drop i) p) :
    Parser.prototype ((Cursor.ofTokens ts).seek i) = .ok p ((Cursor.ofTokens ts).seek j) := by
  have hts := drop_eq_segment_append h.ne_nil
  have hread : ReadsPrototype ((Cursor.ofTokens ts).seek i).rest p (ts.drop j) :=
    (hts ▸ h.reads (ts.drop j) : ReadsPrototype (ts.drop i) p (ts.drop j))
  obtain ⟨c, hrun, hrest⟩ := reader_prototype.complete hread
  obtain ⟨k, hk, rfl, -⟩ := exists_segment_of_prototype hrun
  have hkj : k = j := by
    have hlen := congrArg List.length (show ts.drop k = ts.drop j from hrest)
    rw [List.length_drop, List.length_drop] at hlen
    omega
  rw [hrun, hkj]

end Segments

/-- Signatures are parsed exactly where they stand: started at a token, the parser succeeds with a
signature and stops at another token if and only if the tokens between the two have a form of it. If
no segment from the start on has a form, it fails with an error of the grammar. -/
theorem prototype_iff_form (ts : List Token) (i : Nat) :
    (∀ p j, Parser.prototype ((Cursor.ofTokens ts).seek i) = .ok p ((Cursor.ofTokens ts).seek j) ↔
      j ≤ ts.length ∧ PrototypeForm ((ts.take j).drop i) p) ∧
    ((∀ p, ∀ j ≤ ts.length, ¬ PrototypeForm ((ts.take j).drop i) p) →
      ∃ e c, Parser.prototype ((Cursor.ofTokens ts).seek i) = .error e c ∧
        e.cause ≠ .outOfBudget) := by
  refine ⟨fun p j => ?_, fun hnone => ?_⟩
  · constructor
    · intro h
      obtain ⟨k, hk, hc, hform⟩ := exists_segment_of_prototype h
      have hjk := congrArg Cursor.index hc
      rw [Cursor.index_seek, Cursor.index_seek] at hjk
      exact hjk ▸ ⟨hk, hform⟩
    · rintro ⟨hj, h⟩
      exact prototype_of_segment hj h
  · cases hrun : Parser.prototype ((Cursor.ofTokens ts).seek i) with
    | ok p c =>
      obtain ⟨j, hj, -, hform⟩ := exists_segment_of_prototype hrun
      exact absurd hform (hnone p j hj)
    | error e c => exact ⟨e, c, rfl, (Logged.follows_prototype.objects hrun).ne_outOfBudget⟩

end Frontend.Grammar
