import Frontend.Proofs.Tree.RoundTrip

/-!
# Nested modules

A module can also be built by hand, out of classes and traits that hold their definitions as
members. Parsing its source flattens it: what is left are the definitions of the tree in order, each
with the names of the blocks that it stood in. One `end` has to close the right block for this, and
a definition without statements, which has none of its own, has to be the last member of its block.
-/

namespace Frontend

/-! ### The definitions of a tree -/

namespace Node

mutual

/-- The definitions of a tree in order, each with the names of the blocks around it. -/
def definitions (className implName : Text) : Node → List Definition
  | .module _ body => definitionsAll className implName body
  | .classBlock _ name body => definitionsAll name [] body
  | .traitBlock _ name body => definitionsAll name [] body
  | .implBlock _ name body => definitionsAll className name body
  | .definition span isMain proto body _ _ => [⟨span, isMain, proto, body, className, implName⟩]
  | _ => []

/-- The definitions of trees in order. -/
def definitionsAll (className implName : Text) : List Node → List Definition
  | []      => []
  | n :: ns => n.definitions className implName ++ definitionsAll className implName ns

end

end Node

namespace Grammar

/-! ### Modules built by hand -/

/-- The signature and the statements of some definition in parsed sources. -/
def Sourced (prec : Precedence) (proto : Prototype) (body : List Node) : Prop :=
  ∃ files ts m, Lexer.stream files = .ok ts ∧ parse prec ts = .ok m ∧
    ∃ d ∈ m.defs, d.proto = proto ∧ d.body = body

/-- The members of a block. A definition without statements is the last one. -/
inductive Members (prec : Precedence) : Block → List Node → Prop
  | nil (b : Block) : Members prec b []
  | definition {b : Block} (span : Span) (isMain : Bool) {proto : Prototype} {body ns : List Node}
      (c i : Text) (hs : Sourced prec proto body) (hl : body = [] → ns = [])
      (hns : Members prec b ns) :
      Members prec b (.definition span isMain proto body c i :: ns)
  | implBlock {c name : Text} (span : Span) {body ns : List Node}
      (hn : Lexer.isConstant name = true) (hb : Members prec (.inImpl c name) body)
      (hns : Members prec (.inClass c) ns) :
      Members prec (.inClass c) (.implBlock span name body :: ns)

/-- An item of a module. -/
inductive Item (prec : Precedence) : Node → Prop
  | definition (span : Span) (isMain : Bool) {proto : Prototype} {body : List Node}
      (hs : Sourced prec proto body) (hb : body ≠ []) :
      Item prec (.definition span isMain proto body [] [])
  | classBlock (span : Span) {name : Text} {body : List Node}
      (hn : Lexer.isConstant name = true) (hb : Members prec (.inClass name) body) :
      Item prec (.classBlock span name body)
  | traitBlock (span : Span) {name : Text} {body : List Node}
      (hn : Lexer.isConstant name = true) (hb : Members prec (.inTrait name) body) :
      Item prec (.traitBlock span name body)

variable {prec : Precedence} {b b' : Block} {ds : List Definition}

lemma Sourced.fits {proto : Prototype} {body : List Node} (h : Sourced prec proto body)
    (span : Span) (isMain : Bool) (c i : Text) :
    Definition.Fits (0 ≤ prec.of ·) ⟨span, isMain, proto, body, c, i⟩ := by
  obtain ⟨files, ts, m, hs, hm, d, hd, rfl, rfl⟩ := h
  have hp := parsed_of_parse hs hm d hd
  exact ⟨hp.proto, hp.body⟩

/-! ### Blocks -/

/-- A block on lines of its own. -/
lemma adds_renderBlock {w : String} {word : Kind} {name : Text} {members : List Member}
    (ho : Opens b word name b') (hw : (Text.ofString w, word) ∈ Kind.keywords)
    (hn : Lexer.isConstant name = true)
    (h : Closes prec b' (members.flatMap Member.blockLines ++ Text.ofString "end\n") ds)
    (depth : Nat) :
    Adds prec b (indentation depth ++ renderBlock w name members ++ [0x0A]) ds := by
  have ha := adds_block ho hw hn h depth
  have he : Text.ofString "end\n" = Text.ofString "end" ++ [0x0A] := rfl
  rw [he] at ha
  simpa [renderBlock] using ha

/-- The members of a block and its `end` add the definitions of its tree. -/
theorem Members.closes {ns : List Node} (h : Members prec b ns) (hb : b ≠ .top) (depth : Nat) :
    Closes prec b
      ((Node.toMembers ns).flatMap Member.blockLines ++
        (indentation depth ++ Text.ofString "end\n"))
      ((Node.definitionsAll b.className b.implName ns).map Definition.remade) := by
  induction h generalizing depth with
  | nil => exact closes_end hb depth
  | @definition b span isMain proto body ns c i hs hl hns ih =>
    have hf := hs.fits span isMain b.className b.implName
    by_cases hbody : body = []
    · obtain rfl := hl hbody
      have hc := closes_definition hf hb 1 depth
      simp only [Node.toMembers, Node.toMember, List.flatMap_singleton, Member.blockLines]
      exact hc
    · have ha := (adds_definition (b := b) hf hbody 1).closes (ih hb depth)
      rw [← List.append_assoc] at ha
      exact ha
  | @implBlock c name span body ns hn _ _ ihb ihn =>
    have ha := (adds_renderBlock (w := "impl") (.ofImpl c name) (by decide) hn
      (ihb (by simp) 0) 1).closes (ihn (by simp) depth)
    rw [← List.append_assoc, ← List.map_append] at ha
    exact ha

/-! ### Modules -/

lemma Item.adds {n : Node} (h : Item prec n) :
    Adds prec .top (n.render ++ [0x0A]) ((n.definitions [] []).map Definition.remade) := by
  cases h with
  | @definition span isMain proto body hs hb =>
    have ha := adds_definition (b := .top) (hs.fits span isMain [] []) hb 0
    rwa [← render_definition proto _ [] []] at ha
  | classBlock span hn hb =>
    exact adds_renderBlock (w := "class") (.ofClass _) (by decide) hn (hb.closes (by simp) 0) 0
  | traitBlock span hn hb =>
    exact adds_renderBlock (w := "trait") (.ofTrait _) (by decide) hn (hb.closes (by simp) 0) 0

/-- What is written for an item stands alone between the items around it. -/
lemma Item.renderMember {n : Node} (h : Item prec n) (place : Place) :
    Frontend.renderMember place n.toMember =
      (place.close ++ place.gap ++ n.render ++ [0x0A], .top) := by
  cases h <;> rfl

lemma continues_items {ns : List Node} (h : ∀ n ∈ ns, Item prec n) (place : Place) :
    Continues prec place (renderMembers place (Node.toMembers ns))
      ((Node.definitionsAll [] [] ns).map Definition.remade) := by
  induction ns generalizing place with
  | nil =>
    rw [Node.toMembers, renderMembers, ← List.append_nil place.close]
    exact .close .nil place
  | cons n ns ih =>
    obtain ⟨hn, hns⟩ := List.forall_mem_cons.1 h
    cases ih hns .top with
    | top hrest =>
      have ha := Continues.item (hn.adds.append hrest) place
      rw [Node.toMembers, renderMembers, hn.renderMember, Node.definitionsAll, List.map_append]
      simpa using ha

/-- The source of a module built by hand is parsed as the definitions of its tree in order, each
with the names of the blocks around it. Where a program starts is not written: parsing takes it from
the name, so the definitions are those of the tree if the tree does so too. -/
theorem parse_render_nested {body : List Node} (h : ∀ n ∈ body, Item prec n) (span : Span) :
    ∃ ts m, Lexer.tokens (Node.module span body).render 0 = .ok ts ∧ parse prec ts = .ok m ∧
      m.defs.map Definition.erase =
        ((Node.module span body).definitions [] []).map Definition.remade ∧
      ((∀ d ∈ (Node.module span body).definitions [] [],
          d.isMain = decide (d.proto.name = Parser.mainName)) →
        m.defs.map Definition.erase =
          ((Node.module span body).definitions [] []).map Definition.erase) := by
  cases continues_items h .start with
  | start ha =>
    obtain ⟨ts, m, ht, hm, he⟩ := ha.exists_parse 0
    refine ⟨ts, m, ht, hm, he, fun hd => he.trans (List.map_congr_left fun d hmem => ?_)⟩
    exact Definition.remade_eq_erase (hd d hmem)

/-- A method without statements in an impl block, and a method behind that block. -/
theorem parse_render_nested_impl : ∃ ts m,
    Lexer.tokens (Node.module ⟨-1, -1⟩ [.classBlock ⟨-1, -1⟩ [0x41]
      [.implBlock ⟨-1, -1⟩ [0x42] [.definition ⟨-1, -1⟩ false { name := [0x67] } [] [] []],
        .definition ⟨-1, -1⟩ false { name := [0x66] } [.int ⟨17, 17⟩ 1] [] []]]).render 0 =
      .ok ts ∧
    parse .builtin ts = .ok m ∧
    m.defs.map Definition.erase =
      [⟨⟨-1, -1⟩, false, { name := [0x67] }, [], [0x41], [0x42]⟩,
        ⟨⟨-1, -1⟩, false, { name := [0x66] }, [.int ⟨-1, -1⟩ 1], [0x41], []⟩] := by
  have hf : Sourced .builtin { name := [0x66] } [.int ⟨17, 17⟩ 1] :=
    ⟨[(Text.ofString "class A\n def f\n  1\n end\n def g\nend", 0)], _, _, by cbv, by rfl, _,
      .head _, by rfl, by rfl⟩
  have hg : Sourced .builtin { name := [0x67] } [] :=
    ⟨[(Text.ofString "class A\n def f\n  1\n end\n def g\nend", 0)], _, _, by cbv, by rfl, _,
      .tail _ (.head _), by rfl, by rfl⟩
  have hi : Members .builtin (.inClass [0x41]) [.implBlock ⟨-1, -1⟩ [0x42]
      [.definition ⟨-1, -1⟩ false { name := [0x67] } [] [] []],
      .definition ⟨-1, -1⟩ false { name := [0x66] } [.int ⟨17, 17⟩ 1] [] []] :=
    .implBlock _ rfl (.definition _ _ [] [] hg (fun _ => rfl) (.nil _))
      (.definition _ _ [] [] hf (fun _ => rfl) (.nil _))
  obtain ⟨ts, m, ht, hm, -, he⟩ := parse_render_nested
    (List.forall_mem_singleton.2 (.classBlock ⟨-1, -1⟩ rfl hi)) ⟨-1, -1⟩
  exact ⟨ts, m, ht, hm, (he (by decide)).trans rfl⟩

/-- A definition `main` where no program starts is an item, but what is parsed from its source is a
definition where one does. -/
theorem parse_render_nested_main :
    (∀ n ∈ [.definition ⟨-1, -1⟩ false { name := Text.ofString "main" } [.int ⟨13, 13⟩ 1] [] []],
      Item .builtin n) ∧
    ¬ ∃ ts m, Lexer.tokens (Node.module ⟨-1, -1⟩
        [.definition ⟨-1, -1⟩ false { name := Text.ofString "main" }
          [.int ⟨13, 13⟩ 1] [] []]).render 0 = .ok ts ∧
      parse .builtin ts = .ok m ∧
      m.defs.map Definition.erase = ((Node.module ⟨-1, -1⟩
        [.definition ⟨-1, -1⟩ false { name := Text.ofString "main" }
          [.int ⟨13, 13⟩ 1] [] []]).definitions [] []).map Definition.erase := by
  have hs : Sourced .builtin { name := Text.ofString "main" } [.int ⟨13, 13⟩ 1] :=
    ⟨[(Text.ofString "def main()\n  1\nend", 0)], _, _, by cbv, by rfl, _, .head _, by rfl,
      by rfl⟩
  refine ⟨List.forall_mem_singleton.2 (.definition _ _ hs (by simp)), ?_⟩
  rintro ⟨ts, m, ht, hm, he⟩
  obtain ⟨us, hu⟩ : ∃ us, Lexer.tokens (Node.module ⟨-1, -1⟩
      [.definition ⟨-1, -1⟩ false { name := Text.ofString "main" }
        [.int ⟨13, 13⟩ 1] [] []]).render 0 = .ok us ∧
      (parse .builtin us).map (·.defs.map Definition.isMain) = .ok [true] := ⟨_, by cbv, by rfl⟩
  obtain rfl : ts = us := Except.ok.inj (ht.symm.trans hu.1)
  have hd : m.defs.map Definition.isMain = [true] := by simpa [hm, Except.map] using hu.2
  have hf := congrArg (List.map Definition.isMain) he
  have hcomp : Definition.isMain ∘ Definition.erase = Definition.isMain := rfl
  rw [List.map_map, hcomp, hd] at hf
  exact absurd hf (by decide)

end Grammar

end Frontend
