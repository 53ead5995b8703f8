import Frontend.Proofs.Parser.Blocks

/-!
# Precedence climbing

Operands with operators between them form a chain. What tree a chain stands for has nothing to do
with parsing: the rightmost operator of least precedence is at the top, and the parts on both sides
of it are grouped in the same way.

Climbing builds this tree from the left. The step that matters is `group_absorb`: an operator may
take the operators behind it that bind tighter together with its right operand, and what comes next
may then be grouped as if the result were a single operand.
-/

namespace Frontend.Grammar

/-- An operator, the place where it stands, and the operand behind it. -/
structure Link where
  place : Cursor
  op : Int
  operand : Node

variable {prec : Precedence} {x : Node} {l m : Link} {links before after : List Link}

/-! ### Grouping -/

/-- The rightmost operator of least precedence, with what is before and behind it. -/
def loosest? (prec : Precedence) : List Link → Option (List Link × Link × List Link)
  | []         => none
  | l :: links =>
    match loosest? prec links with
    | none                    => some ([], l, links)
    | some (before, m, after) =>
      if prec.of m.op ≤ prec.of l.op then some (l :: before, m, after) else some ([], l, links)

/-- An operator is the rightmost one of least precedence. -/
structure Loosest (prec : Precedence) (before : List Link) (m : Link) (after : List Link) :
    Prop where
  before : ∀ k ∈ before, prec.of m.op ≤ prec.of k.op
  after : ∀ k ∈ after, prec.of m.op < prec.of k.op

lemma loosest?_eq_none : loosest? prec links = none ↔ links = [] := by
  cases links with
  | nil => simp [loosest?]
  | cons l links =>
    rw [loosest?]
    split
    · simp
    · split_ifs <;> simp

lemma loosest_of_loosest? (h : loosest? prec links = some (before, m, after)) :
    links = before ++ m :: after ∧ Loosest prec before m after := by
  induction links generalizing before m after with
  | nil => cases h
  | cons l links ih =>
    rw [loosest?] at h
    split at h
    case h_1 hnone =>
      obtain rfl := loosest?_eq_none.1 hnone
      obtain ⟨rfl, rfl, rfl⟩ := h
      exact ⟨rfl, by simp, by simp⟩
    case h_2 before' m' after' hsome =>
      obtain ⟨rfl, hloosest⟩ := ih hsome
      split_ifs at h with hle
      · obtain ⟨rfl, rfl, rfl⟩ := h
        exact ⟨rfl, List.forall_mem_cons.2 ⟨hle, hloosest.before⟩, hloosest.after⟩
      · obtain ⟨rfl, rfl, rfl⟩ := h
        refine ⟨rfl, by simp, fun k hk => ?_⟩
        have hlt := lt_of_not_ge hle
        rcases List.mem_append.1 hk with hk | hk
        · exact lt_of_lt_of_le hlt (hloosest.before k hk)
        · rcases List.mem_cons.1 hk with rfl | hk
          · exact hlt
          · exact hlt.trans (hloosest.after k hk)

/-- There is only one rightmost operator of least precedence. -/
lemma loosest?_of_loosest (h : Loosest prec before m after) :
    loosest? prec (before ++ m :: after) = some (before, m, after) := by
  induction before with
  | nil =>
    rw [List.nil_append, loosest?]
    split
    case h_1 => rfl
    case h_2 before' m' after' hsome =>
      obtain ⟨rfl, -⟩ := loosest_of_loosest? hsome
      rw [if_neg (not_le_of_gt (h.after m' (by simp)))]
  | cons l before ih =>
    obtain ⟨hle, hbefore⟩ := List.forall_mem_cons.1 h.before
    rw [List.cons_append, loosest?, ih ⟨hbefore, h.after⟩]
    simp only [if_pos hle]

/-- Two operands with an operator between them. -/
def Link.join (l : Link) (left right : Node) : Node :=
  .binary ⟨left.start, right.stop⟩ l.op left right

/-- The tree of a chain: it is split at the rightmost operator of least precedence, and the parts
are grouped in the same way. -/
def group (prec : Precedence) (x : Node) (links : List Link) : Node :=
  match _ : loosest? prec links with
  | none                    => x
  | some (before, m, after) => m.join (group prec x before) (group prec m.operand after)
termination_by links.length
decreasing_by
  all_goals
    obtain ⟨rfl, -⟩ := loosest_of_loosest? ‹_›
    simp only [List.length_append, List.length_cons]
    omega

lemma group_nil (prec : Precedence) (x : Node) : group prec x [] = x := by
  rw [group]
  split
  case h_1 => rfl
  case h_2 h => cases h

lemma group_split (h : Loosest prec before m after) (x : Node) :
    group prec x (before ++ m :: after) =
      m.join (group prec x before) (group prec m.operand after) := by
  rw [group]
  split
  case h_1 hnone =>
    rw [loosest?_of_loosest h] at hnone
    cases hnone
  case h_2 hsome =>
    rw [loosest?_of_loosest h] at hsome
    obtain ⟨rfl, rfl, rfl⟩ := hsome
    rfl

/-- Every chain with operators has one at which it is split. -/
lemma exists_loosest (prec : Precedence) (h : links ≠ []) :
    ∃ before m after, links = before ++ m :: after ∧ Loosest prec before m after := by
  cases hsplit : loosest? prec links with
  | none => exact absurd (loosest?_eq_none.1 hsplit) h
  | some split =>
    obtain ⟨before, m, after⟩ := split
    exact ⟨before, m, after, loosest_of_loosest? hsplit⟩

/-- An operator takes the operators behind it that bind tighter. If the next one does not, they
can all be grouped with both operands of the first one before the rest of the chain is. -/
lemma group_absorb {tighter rest : List Link} (ht : ∀ k ∈ tighter, prec.of l.op < prec.of k.op)
    (hr : ∀ k ∈ rest.head?, prec.of k.op ≤ prec.of l.op) (x : Node) :
    group prec x (l :: (tighter ++ rest)) =
      group prec (l.join x (group prec l.operand tighter)) rest := by
  -- The induction is on the part behind: its loosest operator is also that of the whole chain.
  induction hn : rest.length using Nat.strong_induction_on generalizing rest with
  | _ n ih =>
    subst hn
    by_cases hrest : rest = []
    · subst hrest
      rw [List.append_nil, group_nil]
      have hsplit : group prec x ([] ++ l :: tighter) = _ := group_split ⟨by simp, ht⟩ x
      rwa [List.nil_append, group_nil] at hsplit
    · obtain ⟨before, m, after, rfl, hm⟩ := exists_loosest prec hrest
      have hhead : prec.of m.op ≤ prec.of l.op := by
        cases before with
        | nil => exact hr m rfl
        | cons k before => exact (hm.before k (by simp)).trans (hr k rfl)
      have hbefore : ∀ k ∈ before.head?, prec.of k.op ≤ prec.of l.op := by
        intro k hk
        apply hr k
        cases before with
        | nil => cases hk
        | cons _ before => exact hk
      have hwhole : Loosest prec (l :: (tighter ++ before)) m after := by
        refine ⟨List.forall_mem_cons.2 ⟨hhead, fun k hk => ?_⟩, hm.after⟩
        rcases List.mem_append.1 hk with hk | hk
        · exact hhead.trans (ht k hk).le
        · exact hm.before k hk
      have hsplit := group_split hwhole x
      rw [List.cons_append, List.append_assoc] at hsplit
      rw [hsplit, group_split hm, ih before.length (by simp) hbefore rfl]

/-! ### Chains -/

/-- The place of the first operator, or that behind the last operand. -/
def place (links : List Link) (last : Cursor) : Cursor := (links.head?.map Link.place).getD last

/-- Each operator stands at its place, and the run that finds its operand stops at the next
operator. The last operand is followed neither by whitespace nor by another operator. -/
inductive Linked (prec : Precedence) (s : Scope) : List Link → Cursor → Prop
  | nil {last : Cursor} (hskip : skip last.rest = last.rest)
      (hop : (front last.rest).operator? = none) : Linked prec s [] last
  | cons {l : Link} {links : List Link} {last : Cursor} {pos : Int} {ts : List Token} {n : Nat}
      (hop : l.place.rest = ⟨.operator l.op, pos⟩ :: ts)
      (hx : Parser.unary prec n s l.place.next.skipWhitespace =
        .ok l.operand (place links last))
      (h : Linked prec s links last) : Linked prec s (l :: links) last

/-- The operators at the start of a chain that bind at least as tightly as a level. -/
def taken (prec : Precedence) (least : Int) (links : List Link) : List Link :=
  links.takeWhile fun l => decide (least ≤ prec.of l.op)

/-- The operators from the first one on that does not bind as tightly as a level. -/
def untaken (prec : Precedence) (least : Int) (links : List Link) : List Link :=
  links.dropWhile fun l => decide (least ≤ prec.of l.op)

variable {s : Scope} {last c : Cursor} {least : Int} {n : Nat}

lemma place_nil (last : Cursor) : place [] last = last := rfl

lemma place_cons (l : Link) (links : List Link) (last : Cursor) :
    place (l :: links) last = l.place := rfl

lemma Linked.skip_place (h : Linked prec s links last) :
    skip (place links last).rest = (place links last).rest := by
  cases h with
  | nil hskip => exact hskip
  | cons hop =>
    rw [place_cons, hop]
    exact skip_cons_of_not_whitespace rfl _

lemma Linked.of_suffix {links' : List Link} (h : Linked prec s links last) (hs : links' <:+ links) :
    Linked prec s links' last := by
  induction h with
  | nil hskip hop =>
    obtain rfl := List.suffix_nil.1 hs
    exact .nil hskip hop
  | cons hop hx h ih =>
    rcases List.suffix_cons_iff.1 hs with rfl | hs
    · exact .cons hop hx h
    · exact ih hs

/-- The level at the place of a chain is that of its first operator, if there is one. -/
lemma Linked.levelOf_place_lt (h : Linked prec s links last) {bound : Int} (hbound : 0 ≤ bound) :
    levelOf prec (place links last).rest < bound ↔ ∀ l ∈ links.head?, prec.of l.op < bound := by
  cases h with
  | nil _ hop =>
    have hlevel : levelOf prec (place [] last).rest = -1 := by
      rw [place_nil, levelOf]
      generalize front last.rest = kind at hop ⊢
      cases kind with
      | operator => cases hop
      | _ => rfl
    rw [hlevel]
    simpa using by omega
  | @cons l _ _ _ _ _ hop =>
    have hlevel : levelOf prec l.place.rest = prec.of l.op := by rw [hop]; rfl
    rw [place_cons, hlevel]
    simp

lemma taken_eq_nil (h : ∀ l ∈ links.head?, prec.of l.op < least) :
    taken prec least links = [] ∧ untaken prec least links = links := by
  cases links with
  | nil => exact ⟨rfl, rfl⟩
  | cons l links =>
    have hl : ¬least ≤ prec.of l.op := not_le_of_gt (h l rfl)
    simp [taken, untaken, hl]

lemma lt_of_mem_head?_untaken {k : Link} (h : k ∈ (untaken prec least links).head?) :
    prec.of k.op < least := by
  have hhead := List.head?_dropWhile_not (fun l : Link => decide (least ≤ prec.of l.op)) links
  rw [untaken, Option.mem_def] at h
  rw [h] at hhead
  simpa using hhead

lemma head?_taken (h : m ∈ (taken prec least links).head?) : m ∈ links.head? := by
  cases links with
  | nil => cases h
  | cons l links =>
    rw [taken, List.takeWhile_cons] at h
    split_ifs at h
    · exact h
    · cases h

/-- What is taken at a level is taken at a higher one first, and then what is left of it. -/
lemma taken_cons (links : List Link) {higher : Int} (hl : least ≤ prec.of l.op)
    (hh : least ≤ higher) :
    taken prec least (l :: links) =
        l :: (taken prec higher links ++ taken prec least (untaken prec higher links)) ∧
      untaken prec least (l :: links) = untaken prec least (untaken prec higher links) := by
  have hmem : ∀ k ∈ taken prec higher links, decide (least ≤ prec.of k.op) = true := by
    intro k hk
    have hk' := List.mem_takeWhile_imp hk
    simp only [decide_eq_true_eq] at hk' ⊢
    omega
  have hsplit : links = taken prec higher links ++ untaken prec higher links :=
    List.takeWhile_append_dropWhile.symm
  constructor
  · conv_lhs => rw [taken, hsplit]
    rw [List.takeWhile_cons_of_pos (by simpa using hl), List.takeWhile_append_of_pos hmem]
    rfl
  · conv_lhs => rw [untaken, hsplit]
    rw [List.dropWhile_cons_of_pos (by simpa using hl), List.dropWhile_append_of_pos hmem]
    rfl

/-- Climbing takes the operators behind a left operand that bind at least as tightly as its level,
and stops at the first other one. -/
lemma reads_binary (hleast : 0 ≤ least) (h : Linked prec s links last) (x : Node) :
    Reads prec s (.binary least x) (place links last).rest (group prec x (taken prec least links))
      (place (untaken prec least links) last).rest := by
  induction hn : links.length using Nat.strong_induction_on generalizing links least x with
  | _ n ih =>
  subst hn
  by_cases hstop : ∀ l ∈ links.head?, prec.of l.op < least
  · obtain ⟨ht, hu⟩ := taken_eq_nil hstop
    rw [ht, hu, group_nil]
    exact .combined (.inr (.inl ((h.levelOf_place_lt hleast).2 hstop)))
  cases h with
  | nil => simp at hstop
  | @cons l links last pos ts n hop hx h =>
  have hl : least ≤ prec.of l.op := by simpa using hstop
  obtain ⟨hy, -⟩ := reads_of_run (g := .unary) hx
  rw [Cursor.rest_skipWhitespace, Cursor.rest_next hop] at hy
  -- The operators that bind tighter go with the right operand.
  obtain ⟨ht, hu⟩ := taken_cons links hl (show least ≤ prec.of l.op + 1 by omega)
  have hsuffix : untaken prec (prec.of l.op + 1) links <:+ links := List.dropWhile_suffix _
  have hrest := ih _ (Nat.lt_succ_of_le hsuffix.length_le) hleast (h.of_suffix hsuffix)
    (l.join x (group prec l.operand (taken prec (prec.of l.op + 1) links))) rfl
  have hlevel : levelOf prec (place links last).rest < prec.of l.op + 1 ↔ _ :=
    h.levelOf_place_lt (by omega)
  rw [ht, hu, place_cons, hop, group_absorb]
  · by_cases hnext : ∀ k ∈ links.head?, prec.of k.op < prec.of l.op + 1
    · obtain ⟨ht, hu⟩ := taken_eq_nil hnext
      have hle := hlevel.2 hnext
      rw [ht, hu, group_nil] at hrest ⊢
      exact .looser hl hy (by omega) (h.skip_place.symm ▸ hrest)
    · have hlt := mt hlevel.1 hnext
      have hright : Reads prec s (.binary (prec.of l.op + 1) l.operand) _ _ _ :=
        ih _ (Nat.lt_succ_self _) (by omega) h l.operand rfl
      exact .tighter hl hy (by omega) (h.skip_place.symm ▸ hright) hrest
  · intro k hk
    have hle := List.mem_takeWhile_imp hk
    simp only [decide_eq_true_eq] at hle
    omega
  · intro k hk
    have hlt := lt_of_mem_head?_untaken (head?_taken hk)
    omega

/-! ### Expressions -/

/-- Two places that are reached from the same one and have the same tokens ahead are the same. -/
lemma eq_of_reaches {c₁ c₂ : Cursor} (h₁ : c.Reaches c₁) (h₂ : c.Reaches c₂)
    (hr : c₁.rest = c₂.rest) : c₁ = c₂ := by
  obtain ⟨u₁, hr₁, hp₁, hb₁⟩ := h₁
  obtain ⟨u₂, hr₂, hp₂, hb₂⟩ := h₂
  obtain rfl : u₁ = u₂ := by
    rw [hr₁, hr] at hr₂
    exact List.append_cancel_right hr₂
  cases c₁
  cases c₂
  simp_all

lemma Linked.reaches (h : Linked prec s links last) {links' : List Link} (hs : links' <:+ links) :
    (place links last).Reaches (place links' last) := by
  induction h with
  | nil =>
    obtain rfl := List.suffix_nil.1 hs
    exact .refl _
  | cons hop hx h ih =>
    rcases List.suffix_cons_iff.1 hs with rfl | hs
    · exact .refl _
    · exact (((Cursor.reaches_next hop).trans (Cursor.reaches_skipWhitespace _)).trans
        (reads_of_run (g := .unary) hx).2).trans (ih hs)

/-- Precedence climbing builds the tree of a chain. When an operand is found at the cursor and
operators with operands follow it, the expression there is the tree of the first operand and the
operators in front of the first one of negative precedence; and the cursor is left on that one, or
behind the last operand if there is none. -/
theorem expression_eq_group (hx : Parser.unary prec n s c = .ok x (place links last))
    (h : Linked prec s links last) :
    Parser.expression prec s c =
      .ok (group prec x (taken prec 0 links)) (place (untaken prec 0 links) last) := by
  obtain ⟨hy, hreach⟩ := reads_of_run (g := .unary) hx
  have hbinary := reads_binary le_rfl h x
  rw [← h.skip_place] at hbinary
  obtain ⟨c', hrun, hrest⟩ := exists_expression (.expr hy hbinary)
  have hplace : (place links last).Reaches (place (untaken prec 0 links) last) :=
    h.reaches (List.dropWhile_suffix _)
  rw [hrun, eq_of_reaches (expression_eq_ok hrun).2 (hreach.trans hplace) hrest]

/-- The operands and operators of `1 -2*3 > 4)`, where `>` must not be used between operands. -/
theorem expression_eq_group_negative : ∃ prec s c x links last,
    prec = ⟨[(0x2D, 20), (0x2A, 40), (0x3E, -1)]⟩ ∧ s = ⟨[], []⟩ ∧
    c = Cursor.ofTokens [⟨.number 1, 1⟩, ⟨.space, 2⟩, ⟨.operator 0x2D, 3⟩, ⟨.number 2, 4⟩,
      ⟨.operator 0x2A, 5⟩, ⟨.number 3, 6⟩, ⟨.space, 7⟩, ⟨.operator 0x3E, 8⟩, ⟨.number 4, 9⟩,
      ⟨.rightParen, 10⟩] ∧
    Parser.unary prec 4 s c = .ok x (place links last) ∧ Linked prec s links last ∧
    links.map Link.op = [0x2D, 0x2A, 0x3E] ∧
    ∃ c', Parser.expression prec s c = .ok (.binary ⟨1, 6⟩ 0x2D (.int ⟨1, 1⟩ 1)
        (.binary ⟨4, 6⟩ 0x2A (.int ⟨4, 4⟩ 2) (.int ⟨6, 6⟩ 3))) c' ∧
      c'.rest = [⟨.operator 0x3E, 8⟩, ⟨.number 4, 9⟩, ⟨.rightParen, 10⟩] := by
  obtain ⟨prec, hprec⟩ : ∃ prec : Precedence,
    prec = ⟨[(0x2D, 20), (0x2A, 40), (0x3E, -1)]⟩ := ⟨_, rfl⟩
  obtain ⟨s, hs⟩ : ∃ s : Scope, s = ⟨[], []⟩ := ⟨_, rfl⟩
  obtain ⟨c, hc⟩ : ∃ c, c = Cursor.ofTokens [⟨.number 1, 1⟩, ⟨.space, 2⟩, ⟨.operator 0x2D, 3⟩,
    ⟨.number 2, 4⟩, ⟨.operator 0x2A, 5⟩, ⟨.number 3, 6⟩, ⟨.space, 7⟩, ⟨.operator 0x3E, 8⟩,
    ⟨.number 4, 9⟩, ⟨.rightParen, 10⟩] := ⟨_, rfl⟩
  obtain ⟨links, hlinks⟩ : ∃ links : List Link, links = [⟨c.seek 2, 0x2D, .int ⟨4, 4⟩ 2⟩,
    ⟨c.seek 4, 0x2A, .int ⟨6, 6⟩ 3⟩, ⟨c.seek 7, 0x3E, .int ⟨9, 9⟩ 4⟩] := ⟨_, rfl⟩
  -- the first operand, and the operators that are linked behind it
  have hx : Parser.unary prec 4 s c = .ok (.int ⟨1, 1⟩ 1) (place links (c.seek 9)) := by
    subst hlinks hprec hs hc
    rfl
  have h : Linked prec s links (c.seek 9) := by
    subst hlinks hprec hs hc
    exact .cons (n := 4) rfl rfl (.cons (n := 4) rfl rfl (.cons (n := 4) rfl rfl (.nil rfl rfl)))
  have hrun := expression_eq_group hx h
  -- the last operator is left over, so the first two are grouped
  have hgroup : group prec (.int ⟨1, 1⟩ 1) (taken prec 0 links) = .binary ⟨1, 6⟩ 0x2D
      (.int ⟨1, 1⟩ 1) (.binary ⟨4, 6⟩ 0x2A (.int ⟨4, 4⟩ 2) (.int ⟨6, 6⟩ 3)) := by
    subst hlinks hprec hc
    cbv
  rw [hgroup] at hrun
  refine ⟨prec, s, c, _, links, c.seek 9, hprec, hs, hc, hx, h, ?_, _, hrun, ?_⟩
  · rw [hlinks]
    rfl
  · subst hlinks hprec hc
    rfl

end Frontend.Grammar
