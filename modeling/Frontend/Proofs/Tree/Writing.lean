import Frontend.Proofs.Tree.Reading

/-!
# Writing blocks

`Adds prec b t ds` says that the text `t`, written in the block `b`, adds the definitions `ds` to
it, whatever follows; `Closes prec b t ds` says that it also ends the block. Both speak of a text as
a whole, from its bytes to the definitions that are parsed from it, and both can be put together
from the lines that a module is written with. Definitions are compared without their offsets.
-/

namespace Frontend.Grammar

open Lexer (isConstant Lays)

/-- A text in a block adds definitions to it. -/
def Adds (prec : Precedence) (b : Block) (t : Text) (ds : List Definition) : Prop :=
  ∃ ks, Lays (fun _ => false) t ks ∧ ∀ (ts rest out : List Token) (es : List Definition),
    ts.map Token.kind = ks → ReadsBlock prec b rest es out →
      ∃ ds', ds'.map Definition.erase = ds ∧ ReadsBlock prec b (ts ++ rest) (ds' ++ es) out

/-- A text in a block adds definitions to it and ends it. -/
def Closes (prec : Precedence) (b : Block) (t : Text) (ds : List Definition) : Prop :=
  ∃ ks, Lays (fun _ => false) t ks ∧ ∀ ts rest : List Token, ts.map Token.kind = ks →
    ∃ ds' r, ds'.map Definition.erase = ds ∧ skip r = skip rest ∧
      ReadsBlock prec b (ts ++ rest) ds' r

variable {prec : Precedence} {b : Block} {t u : Text} {ds es : List Definition}

/-! ### Putting texts together -/

lemma Adds.nil : Adds prec b [] [] := by
  refine ⟨[], .nil _, fun ts rest out es hk h => ⟨[], rfl, ?_⟩⟩
  rw [List.map_eq_nil_iff.1 hk]
  exact h

lemma Adds.append (h : Adds prec b t ds) (h' : Adds prec b u es) :
    Adds prec b (t ++ u) (ds ++ es) := by
  obtain ⟨ks, hl, h⟩ := h
  obtain ⟨ls, hl', h'⟩ := h'
  refine ⟨ks ++ ls, hl.append_free hl', fun ts rest out fs hk hr => ?_⟩
  obtain ⟨us, vs, rfl, hus, hvs⟩ := exists_append_of_kinds hk
  obtain ⟨es', hes, hr⟩ := h' vs rest out fs hvs hr
  obtain ⟨ds', hds, hr⟩ := h us (vs ++ rest) out (es' ++ fs) hus hr
  refine ⟨ds' ++ es', by rw [List.map_append, hds, hes], ?_⟩
  rwa [List.append_assoc, List.append_assoc]

lemma Adds.closes (h : Adds prec b t ds) (h' : Closes prec b u es) :
    Closes prec b (t ++ u) (ds ++ es) := by
  obtain ⟨ks, hl, h⟩ := h
  obtain ⟨ls, hl', h'⟩ := h'
  refine ⟨ks ++ ls, hl.append_free hl', fun ts rest hk => ?_⟩
  obtain ⟨us, vs, rfl, hus, hvs⟩ := exists_append_of_kinds hk
  obtain ⟨es', r, hes, hr, hread⟩ := h' vs rest hvs
  obtain ⟨ds', hds, hread⟩ := h us (vs ++ rest) r es' hus hread
  refine ⟨ds' ++ es', r, by rw [List.map_append, hds, hes], hr, ?_⟩
  rwa [List.append_assoc]

/-- A text that adds definitions at the top level is parsed as them. -/
lemma Adds.exists_parse (h : Adds prec .top t ds) (pos : Int) :
    ∃ ts m, Lexer.tokens t pos = .ok ts ∧ parse prec ts = .ok m ∧
      m.defs.map Definition.erase = ds := by
  obtain ⟨ks, hl, h⟩ := h
  obtain ⟨ts, hk, ht⟩ := hl.exists_tokens pos
  obtain ⟨ds', hds, hr⟩ := h ts [] [] [] hk (.finished rfl)
  rw [List.append_nil, List.append_nil] at hr
  exact ⟨ts, _, ht, parse_of_reads hr, hds⟩

/-! ### Lines -/

lemma adds_newline : Adds prec b [0x0A] [] := by
  refine ⟨[.newline], Lexer.lays_newline, fun ts rest out es hk h => ⟨[], rfl, ?_⟩⟩
  obtain ⟨pos, rfl⟩ := exists_singleton_of_kinds hk
  rw [← readsBlock_skip, List.cons_append, skip_cons_of_whitespace rfl]
  exact readsBlock_skip.2 h

lemma lays_of_definition {d : Definition} {ok : Int → Prop} (hd : d.Fits ok) (depth : Nat) :
    Lays (fun _ => false) (definitionLines depth d.proto (Node.statements d.body))
      (definitionLayout depth d.proto d.body) := by
  have hw : ∀ {done body : List Node}, BodyFits ok d.proto.params done body →
      ∀ n ∈ body, Written n.render n.layout := by
    intro done body hb
    induction body generalizing done with
    | nil => simp
    | cons n ns ih => exact List.forall_mem_cons.2 ⟨hb.1.written, ih hb.2⟩
  exact lays_definition hd.proto (hw hd.body) depth

/-- A definition with statements can stand in front of everything. -/
lemma adds_definition {d : Definition} (hd : d.Fits (0 ≤ prec.of ·)) (hne : d.body ≠ [])
    (depth : Nat) :
    Adds prec b (definitionLines depth d.proto (Node.statements d.body)) [b.stamp d] := by
  refine ⟨_, lays_of_definition hd depth, fun ts rest out es hk h => ?_⟩
  obtain ⟨d', he, hr⟩ := exists_definition_back hd hk rest (fun h => absurd h hne) h
  exact ⟨[d'], by rw [List.map_singleton, he], hr⟩

/-- An `end` on a line of its own ends a block. -/
lemma closes_end (hb : b ≠ .top) (depth : Nat) :
    Closes prec b (indentation depth ++ Text.ofString "end\n") [] := by
  refine ⟨_, lays_endLine depth, fun ts rest hk => ?_⟩
  obtain ⟨pos, pos', hs⟩ := exists_endLine hk rest
  exact ⟨[], ⟨.newline, pos'⟩ :: rest, rfl, skip_cons_of_whitespace rfl rest, .closed hb hs⟩

/-- A definition, with or without statements, can stand in front of the `end` of a block. -/
lemma closes_definition {d : Definition} (hd : d.Fits (0 ≤ prec.of ·)) (hb : b ≠ .top)
    (depth depth' : Nat) :
    Closes prec b (definitionLines depth d.proto (Node.statements d.body) ++
      (indentation depth' ++ Text.ofString "end\n")) [b.stamp d] := by
  refine ⟨_, (lays_of_definition hd depth).append_free (lays_endLine depth'),
    fun ts rest hk => ?_⟩
  obtain ⟨us, vs, rfl, hus, hvs⟩ := exists_append_of_kinds hk
  obtain ⟨pos, pos', hs⟩ := exists_endLine hvs rest
  obtain ⟨d', he, hr⟩ := exists_definition_back hd hus (vs ++ rest)
    (fun _ => by rw [hs, front_cons]) (.closed hb hs)
  refine ⟨[d'], ⟨.newline, pos'⟩ :: rest, by rw [List.map_singleton, he],
    skip_cons_of_whitespace rfl rest, ?_⟩
  rwa [List.append_assoc]

/-- A block in another one, from its keyword to its `end`. -/
lemma adds_block {b' : Block} {word : Kind} {w name : Text} (ho : Opens b word name b')
    (hw : (w, word) ∈ Kind.keywords) (hn : isConstant name = true) (h : Closes prec b' t ds)
    (depth : Nat) : Adds prec b (indentation depth ++ (w ++ 0x20 :: (name ++ 0x0A :: t))) ds := by
  obtain ⟨ks, hl, h⟩ := h
  have hname := begins_of_isWord (Bool.and_eq_true_iff.1 hn).1
  have hword := begins_of_isWord (Lexer.forall_mem_keywords _ hw).1
  have h₁ := lays_blank.append ((lays_line (Lexer.lays_constant hn)).append_free hl)
    ((hname.append _).append _).stops_blank (by simp)
  have h₂ := lays_indentation depth ((Lexer.lays_keyword hw).append h₁ (stops_cons (by decide) _)
    (by simp)) (hword.append _).stops_blank (by simp)
  simp only [List.append_assoc, List.cons_append, List.nil_append] at h₂
  -- the layout is opened up to the newline behind the header
  refine ⟨_, h₂, fun ts rest out es hk hr => ?_⟩
  obtain ⟨is, vs, rfl, his, hvs⟩ := exists_append_of_kinds hk
  obtain ⟨pos, ws, rfl, hws⟩ := exists_cons_of_kinds hvs
  obtain ⟨pos₁, xs, rfl, hxs⟩ := exists_cons_of_kinds hws
  obtain ⟨pos₂, ys, rfl, hys⟩ := exists_cons_of_kinds hxs
  obtain ⟨pos₃, us, rfl, hus⟩ := exists_cons_of_kinds hys
  obtain ⟨ds', r, hds, hskip, hread⟩ := h us rest hus
  have hs : skip (is ++ ⟨word, pos⟩ :: ⟨.space, pos₁⟩ :: ⟨.constant name, pos₂⟩ ::
      ⟨.newline, pos₃⟩ :: us ++ rest) = ⟨word, pos⟩ :: ⟨.space, pos₁⟩ :: ⟨.constant name, pos₂⟩ ::
      ⟨.newline, pos₃⟩ :: (us ++ rest) := by
    simp only [List.append_assoc, List.cons_append]
    rw [skip_append_of_whitespace (isWhitespace_of_indent his)]
    refine skip_cons_of_not_whitespace ?_ _
    cases ho <;> rfl
  rw [← readsBlock_skip, ← hskip, readsBlock_skip] at hr
  exact ⟨ds', hds, .nested hs ho ⟨_, pos₂, pos₃, rfl, rfl⟩ hread hr⟩

end Frontend.Grammar
