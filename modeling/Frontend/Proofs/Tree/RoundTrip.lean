import Frontend.Proofs.Tree.Writing

/-!
# The round trip

A module that was parsed is written so that it is parsed as the same module again. It is written
definition by definition, and after each of them the lines so far have led to some place; what is
still to be written must close the blocks that are open there. `Continues` says that a text does,
and every step of the printer keeps it.
-/

namespace Frontend

/-- The block that is open at a place. -/
def Place.block : Place → Grammar.Block
  | .start      => .top
  | .top        => .top
  | .inClass c  => .inClass c
  | .inImpl c i => .inImpl c i

namespace Grammar

/-- A text behind some place closes the blocks that are open there, and adds definitions. -/
inductive Continues (prec : Precedence) : Place → Text → List Definition → Prop
  | start {t : Text} {ds : List Definition} (h : Adds prec .top t ds) : Continues prec .start t ds
  | top {t : Text} {ds : List Definition} (h : Adds prec .top t ds) : Continues prec .top t ds
  | inClass {c t u : Text} {ds es : List Definition} (h : Closes prec (.inClass c) t ds)
      (h' : Adds prec .top u es) : Continues prec (.inClass c) (t ++ u) (ds ++ es)
  | inImpl {c i t u : Text} {ds es : List Definition} (h : Closes prec (.inImpl c i) t ds)
      (h' : Continues prec (.inClass c) u es) : Continues prec (.inImpl c i) (t ++ u) (ds ++ es)

variable {prec : Precedence} {t u : Text} {ds es : List Definition}

/-! ### Blocks and items -/

/-- More lines can stand in front of a text, in the block that is open. -/
lemma Continues.append {place : Place} (h : Continues prec place u es)
    (ht : Adds prec place.block t ds) : Continues prec place (t ++ u) (ds ++ es) := by
  cases h with
  | start h => exact .start (ht.append h)
  | top h => exact .top (ht.append h)
  | inClass h h' =>
    rw [← List.append_assoc, ← List.append_assoc]
    exact .inClass (ht.closes h) h'
  | inImpl h h' =>
    rw [← List.append_assoc, ← List.append_assoc]
    exact .inImpl (ht.closes h) h'

/-- The lines that lead back to the top level end the blocks that are open. -/
lemma Continues.close (h : Adds prec .top u es) (place : Place) :
    Continues prec place (place.close ++ u) es := by
  cases place with
  | start => exact .start h
  | top => exact .top h
  | inClass c => exact .inClass (closes_end (by simp) 0) h
  | inImpl c i =>
    exact .inImpl (closes_end (by simp) 1) (.inClass (closes_end (by simp) 0) h)

lemma Continues.item (h : Adds prec .top u es) (place : Place) :
    Continues prec place (place.close ++ place.gap ++ u) es := by
  have hg : Adds prec .top (place.gap ++ u) es := by
    cases place with
    | start => exact h
    | _ => exact adds_newline.append h
  rw [List.append_assoc]
  exact .close hg place

/-- The start of a class block leads from the top level into it. -/
lemma Continues.opening {c : Text} (h : Continues prec (.inClass c) u es)
    (hc : Lexer.isConstant c = true) :
    Adds prec .top (Text.ofString "class " ++ c ++ 0x0A :: u) es := by
  cases h with
  | @inClass _ t u ds es h h' =>
    have hb := adds_block (.ofClass c) (w := Text.ofString "class") (by decide) hc h 0
    have hab := hb.append h'
    have he : indentation 0 ++ (Text.ofString "class" ++ 0x20 :: (c ++ 0x0A :: t)) ++ u =
        Text.ofString "class " ++ c ++ 0x0A :: (t ++ u) := by
      simp only [List.append_assoc, List.cons_append]
      rfl
    rwa [he] at hab

/-- The lines of an impl block in a class. -/
lemma adds_impl {c i : Text} (hi : Lexer.isConstant i = true) (h : Closes prec (.inImpl c i) t ds) :
    Adds prec (.inClass c) (Text.ofString "  impl " ++ i ++ [0x0A] ++ t) ds := by
  have hb := adds_block (.ofImpl c i) (w := Text.ofString "impl") (by decide) hi h 1
  have he : indentation 1 ++ (Text.ofString "impl" ++ 0x20 :: (i ++ 0x0A :: t)) =
      Text.ofString "  impl " ++ i ++ [0x0A] ++ t := by
    simp only [List.append_assoc, List.cons_append]
    rfl
  rwa [he] at hb

/-! ### Definitions -/

/-- Without its last line end a definition stands alone. -/
lemma render_definition (proto : Prototype) (statements : List Text) (c i : Text) :
    (Member.definition proto statements c i).render ++ [0x0A] =
      definitionLines 0 proto statements := by
  obtain ⟨t, ht⟩ : ∃ t, definitionLines 0 proto statements = t ++ [0x0A] := by
    match statements with
    | []      => exact ⟨_, rfl⟩
    | s :: ss =>
      refine ⟨(indentation 0 ++ Text.ofString "def " ++ proto.render) ++ 0x0A ::
        ((s :: ss).flatMap (fun s => indentation 1 ++ s ++ [0x0A]) ++ indentation 0 ++
          Text.ofString "end"), ?_⟩
      rw [List.append_assoc _ _ [0x0A], List.cons_append, List.append_assoc _ _ [0x0A]]
      rfl
  rw [Member.render, ht, List.dropLast_concat]

lemma statements_eq_nil {body : List Node} : Node.statements body = [] ↔ body = [] := by
  rw [Node.statements_eq_map, List.map_eq_nil_iff]

section Definitions

variable {d : Definition} (hd : d.Parsed (0 ≤ prec.of ·))
include hd

lemma erase_eq_stamp {b : Block} (hc : d.className = b.className) (hi : d.implName = b.implName) :
    d.erase = b.stamp d := by
  simp only [Block.stamp, Definition.remade, Definition.erase, hd.isMain, hc, hi]

/-- A definition behind the ones of its class outside of impl blocks. -/
lemma Continues.method
    (h : Continues prec
      (renderMethod d.proto (Node.statements d.body) d.className d.implName).2 u es) :
    Continues prec (.inClass d.className)
      ((renderMethod d.proto (Node.statements d.body) d.className d.implName).1 ++ u)
      (d.erase :: es) := by
  rw [renderMethod] at h ⊢
  -- an implementation is a block of its own, and a bodyless definition closes the block it is in
  by_cases hi : d.implName = [] <;> by_cases hb : d.body = []
  · rw [if_pos hi, if_pos (statements_eq_nil.2 hb)] at h ⊢
    rw [erase_eq_stamp hd (b := .inClass d.className) rfl hi]
    cases h with
    | top h => exact .inClass (closes_definition hd.toFits (by simp) 1 0) h
  · rw [if_pos hi, if_neg (mt statements_eq_nil.1 hb)] at h ⊢
    rw [erase_eq_stamp hd (b := .inClass d.className) rfl hi]
    exact h.append (adds_definition hd.toFits hb 1)
  · rw [if_neg hi, if_pos (statements_eq_nil.2 hb)] at h ⊢
    rw [erase_eq_stamp hd (b := .inImpl d.className d.implName) rfl rfl]
    have hcl := closes_definition hd.toFits (b := .inImpl d.className d.implName) (by simp) 2 1
    have ha := h.append (adds_impl (hd.implName hi) hcl)
    rw [← List.append_assoc] at ha
    exact ha
  · rw [if_neg hi, if_neg (mt statements_eq_nil.1 hb)] at h ⊢
    rw [erase_eq_stamp hd (b := .inImpl d.className d.implName) rfl rfl]
    cases h with
    | inImpl h h' =>
      have ha := h'.append (adds_impl (hd.implName hi)
        ((adds_definition hd.toFits hb 2).closes h))
      rw [← List.append_assoc]
      simpa using ha

/-- A definition in a block of its own. -/
lemma Continues.newClass (hc : d.className ≠ []) (place : Place)
    (h : Continues prec
      (renderClass place d.proto (Node.statements d.body) d.className d.implName).2 u es) :
    Continues prec place
      ((renderClass place d.proto (Node.statements d.body) d.className d.implName).1 ++ u)
      (d.erase :: es) := by
  have ha := (Continues.method hd h).opening (hd.className hc)
  simpa [renderClass] using Continues.item ha place

/-- A definition of a class, wherever the lines so far have led. -/
lemma Continues.classMember (hc : d.className ≠ []) (place : Place)
    (h : Continues prec
      (renderClassMember place d.proto (Node.statements d.body) d.className d.implName).2 u es) :
    Continues prec place
      ((renderClassMember place d.proto (Node.statements d.body) d.className d.implName).1 ++ u)
      (d.erase :: es) := by
  cases place with
  | start => exact .newClass hd hc _ h
  | top => exact .newClass hd hc _ h
  | inClass c =>
    simp only [renderClassMember] at h ⊢
    split_ifs at h ⊢ with hcc
    · exact hcc ▸ .method hd h
    · exact .newClass hd hc _ h
  | inImpl c i =>
    simp only [renderClassMember] at h ⊢
    split_ifs at h ⊢ with hcc hii hs
    · -- The block of the definition is open, and has ended behind it.
      subst hcc hii
      rw [erase_eq_stamp hd (b := .inImpl d.className d.implName) rfl rfl]
      exact .inImpl (closes_definition hd.toFits (by simp) 2 1) h
    · subst hcc hii
      rw [erase_eq_stamp hd (b := .inImpl d.className d.implName) rfl rfl]
      exact h.append (adds_definition hd.toFits (mt statements_eq_nil.2 hs) 2)
    · -- Another impl block is open.
      subst hcc
      rw [List.append_assoc]
      exact .inImpl (closes_end (by simp) 1) (.method hd h)
    · exact .newClass hd hc _ h

/-- Each definition is written so that it is added to what the text behind it adds. -/
theorem Continues.member (place : Place)
    (h : Continues prec (renderMember place d.toNode.toMember).2 u es) :
    Continues prec place ((renderMember place d.toNode.toMember).1 ++ u) (d.erase :: es) := by
  rw [Definition.toNode, Node.toMember, renderMember] at h ⊢
  by_cases hc : d.className = []
  · rw [if_pos hc] at h ⊢
    obtain ⟨hi, hb⟩ := hd.top hc
    rw [erase_eq_stamp hd (b := .top) hc hi]
    cases h with
    | top h =>
      have ha := Continues.item ((adds_definition hd.toFits hb 0).append h) place
      rwa [← List.append_assoc, ← render_definition _ _ d.className d.implName,
        ← List.append_assoc] at ha
  · rw [if_neg hc] at h ⊢
    exact .classMember hd hc place h

end Definitions

/-- The invariant of the printer, from any place on. -/
theorem continues_renderMembers {ds : List Definition} (h : ∀ d ∈ ds, d.Parsed (0 ≤ prec.of ·))
    (place : Place) :
    Continues prec place (renderMembers place (Node.toMembers (ds.map Definition.toNode)))
      (ds.map Definition.erase) := by
  induction ds generalizing place with
  | nil =>
    rw [List.map_nil, Node.toMembers, renderMembers, ← List.append_nil place.close]
    exact .close .nil place
  | cons d ds ih =>
    obtain ⟨hd, hds⟩ := List.forall_mem_cons.1 h
    exact .member hd place (ih hds _)

/-- A module of definitions as parsing leaves them is parsed again from its source. -/
lemma exists_parse_render {m : Module} (h : ∀ d ∈ m.defs, d.Parsed (0 ≤ prec.of ·)) :
    ∃ ts m', Lexer.tokens m.render 0 = .ok ts ∧ parse prec ts = .ok m' ∧
      m'.defs.map Definition.erase = m.defs.map Definition.erase := by
  cases continues_renderMembers h .start with
  | start ha => exact ha.exists_parse 0

lemma operators_toNode (m : Module) :
    m.toNode.operators = m.defs.flatMap fun d => d.toNode.operators := by
  rw [Module.toNode, Node.operators, Node.operatorsAll_eq_flatMap, List.flatMap_map]

/-- A parsed module is written so that it is parsed as the same module, whatever the table, as long
as it allows the operators of the module. The table that the module was parsed with does. -/
theorem parse_render {files : List (Text × Int)} {ts : List Token} {p : Precedence} {m : Module}
    (hs : Lexer.stream files = .ok ts) (hm : parse p ts = .ok m) :
    (∀ op ∈ m.toNode.operators, 0 ≤ p.of op) ∧
      ∀ q : Precedence, (∀ op ∈ m.toNode.operators, 0 ≤ q.of op) →
        ∃ ts' m', Lexer.tokens m.render 0 = .ok ts' ∧ parse q ts' = .ok m' ∧
          m'.defs.map Definition.erase = m.defs.map Definition.erase := by
  have hp := parsed_of_parse hs hm
  simp only [operators_toNode, List.mem_flatMap]
  constructor
  · rintro op ⟨d, hd, hop⟩
    refine (hp d hd).body.forall_operators op ?_
    simpa [Definition.toNode, Node.operators] using hop
  · intro q hq
    exact exists_parse_render fun d hd => (hp d hd).of_operators fun op hop => hq op ⟨d, hd, hop⟩

/-- A class that goes on in a second source, read again with a table where all operators bind
alike. -/
theorem parse_render_flat : ∃ ts m ts' m', Lexer.stream
      [(Text.ofString "class A\n impl B\n  def f(x Int)\n   x = x.g() + 2 * 3\n  end\n", 0),
        (Text.ofString " end\n def h\nend\ndef main\n -1\nend", 58)] = .ok ts ∧
      parse .builtin ts = .ok m ∧ m.toNode.operators = [0x2B, 0x2A] ∧
      Lexer.tokens m.render 0 = .ok ts' ∧ parse ⟨[(0x2B, 0), (0x2A, 0)]⟩ ts' = .ok m' ∧
      m'.defs.map Definition.erase = m.defs.map Definition.erase := by
  obtain ⟨ts, hs, m, hm, ho⟩ : ∃ ts, Lexer.stream
      [(Text.ofString "class A\n impl B\n  def f(x Int)\n   x = x.g() + 2 * 3\n  end\n", 0),
        (Text.ofString " end\n def h\nend\ndef main\n -1\nend", 58)] = .ok ts ∧
      ∃ m, parse .builtin ts = .ok m ∧ m.toNode.operators = [0x2B, 0x2A] :=
    ⟨_, by cbv, _, by rfl, by rfl⟩
  obtain ⟨ts', m', ht, hm', he⟩ := (parse_render hs hm).2 ⟨[(0x2B, 0), (0x2A, 0)]⟩ (by
    rw [ho]
    decide)
  exact ⟨ts, m, ts', m', hs, hm, ho, ht, hm', he⟩

end Grammar

end Frontend
