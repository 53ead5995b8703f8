import Frontend.Proofs.Parser.Blocks
import Frontend.Proofs.Tree.Relocation

/-!
# Streams within streams

A stream can be part of a larger one: there are tokens in front of it and behind it, and its offsets
have moved. A run of the parser does the same inside the larger stream as on its own, unless it
has looked at the end of its stream and something stands behind it there. This holds for runs that
fail as well, so an error does not depend on anything that the cursor has not reached.

`FramedAt` says this of a parser at a cursor. It is closed under sequencing, so each function of the
parser needs only its own shape; budgets may grow, as long as the smaller one was not used up.
-/

namespace Frontend

open Grammar (skip skipBlank front levelOf)

/-! ### Going on -/

namespace Cursor

/-- A cursor has gone on in its stream to another place, perhaps beyond the end. -/
def LeadsTo (c c' : Cursor) : Prop :=
  ∃ used, c.rest = used ++ c'.rest ∧ c'.past = used.reverse ++ c.past

variable {c c₁ c₂ : Cursor}

lemma LeadsTo.refl (c : Cursor) : c.LeadsTo c := ⟨[], rfl, rfl⟩

lemma LeadsTo.trans (h : c.LeadsTo c₁) (h' : c₁.LeadsTo c₂) : c.LeadsTo c₂ := by
  obtain ⟨u, hr, hp⟩ := h
  obtain ⟨v, hr', hp'⟩ := h'
  refine ⟨u ++ v, ?_, ?_⟩
  · rw [hr, hr', List.append_assoc]
  · rw [hp', hp, List.reverse_append, List.append_assoc]

lemma Reaches.leadsTo (h : c.Reaches c₁) : c.LeadsTo c₁ := by
  obtain ⟨u, hr, hp, -⟩ := h
  exact ⟨u, hr, hp⟩

lemma LeadsTo.suffix (h : c.LeadsTo c₁) : c₁.rest <:+ c.rest := by
  obtain ⟨u, hr, -⟩ := h
  exact ⟨u, hr.symm⟩

lemma LeadsTo.stream_eq (h : c.LeadsTo c₁) : c₁.stream = c.stream := by
  obtain ⟨u, hr, hp⟩ := h
  rw [stream, stream, hp, hr, List.reverse_append, List.reverse_reverse, List.append_assoc]

lemma LeadsTo.mem_past (h : c.LeadsTo c₁) {t : Token} (ht : t ∈ c.past) : t ∈ c₁.past := by
  obtain ⟨u, -, hp⟩ := h
  rw [hp]
  exact List.mem_append_right _ ht

lemma leadsTo_next (c : Cursor) : c.LeadsTo c.next := by
  cases hr : c.rest with
  | nil => exact ⟨[], by simp [next, hr], by simp [next, hr]⟩
  | cons t ts => exact (reaches_next hr).leadsTo

/-- The offset of a token of the stream. -/
def Knows (c : Cursor) (p : Int) : Prop := ∃ t ∈ c.stream, t.pos = p

lemma knows_of_rest {t : Token} {ts : List Token} (h : c.rest = t :: ts) : c.Knows t.pos :=
  ⟨t, by simp [stream, h], rfl⟩

lemma knows_errorPos (h : c.stream ≠ []) : c.Knows c.errorPos := by
  rcases hr : c.rest with _ | ⟨t, ts⟩
  · rcases hp : c.past with _ | ⟨t, past⟩
    · simp [stream, hr, hp] at h
    · exact ⟨t, by simp [stream, hp], by simp [errorPos, hr, hp]⟩
  · have he : c.errorPos = t.pos := by simp [errorPos, hr]
    rw [he]
    exact knows_of_rest hr

lemma LeadsTo.knows (h : c.LeadsTo c₁) {p : Int} (hk : c₁.Knows p) : c.Knows p := by
  rwa [Knows, h.stream_eq] at hk

end Cursor

/-! ### Frames -/

/-- What is around a stream: the tokens in front of it, the nearest first, those behind it, and
where its offsets have moved. -/
structure Frame where
  move : Int → Int
  /-- An offset that is not known stays so. -/
  move_unknown : move (-1) = -1
  before : List Token
  after : List Token

namespace Frame

/-- A place of a stream, within the larger stream. -/
def cursor (F : Frame) (c : Cursor) : Cursor :=
  ⟨c.past.map (Token.relocate F.move) ++ F.before, c.rest.map (Token.relocate F.move) ++ F.after,
    c.beyond⟩

/-- The frame of a stream with others behind it. -/
def followedBy (us : List Token) : Frame := ⟨id, rfl, [], us⟩

lemma cursor_followedBy (ts us : List Token) :
    (followedBy us).cursor (.ofTokens ts) = .ofTokens (ts ++ us) := by
  have hid : Token.relocate id = id := rfl
  simp [cursor, followedBy, Cursor.ofTokens, hid]

/-- The stream of a cursor has a token, or there is none in front of it. Otherwise an error at its
end would be reported at the token in front. -/
def Fits (F : Frame) (c : Cursor) : Prop := F.before = [] ∨ c.past ≠ [] ∨ c.rest ≠ []

/-- The past of a cursor has a token that is no whitespace, or there is none in front of it. -/
def Marked (F : Frame) (c : Cursor) : Prop :=
  F.before = [] ∨ ∃ t ∈ c.past, t.isWhitespace = false

/-- A cursor has not come to the end of its stream, or there is nothing behind that. -/
def Inside (F : Frame) (c : Cursor) : Prop := F.after = [] ∨ c.rest ≠ []

variable {F : Frame} {c c' : Cursor}

lemma Fits.leadsTo (h : F.Fits c) (hc : c.LeadsTo c') : F.Fits c' := by
  obtain ⟨u, hr, hp⟩ := hc
  rcases h with h | h | h
  · exact .inl h
  · exact .inr (.inl (by simp [hp, h]))
  · by_cases hu : u = []
    · exact .inr (.inr (by simpa [hr, hu] using h))
    · exact .inr (.inl (by simp [hp, hu]))

lemma Marked.leadsTo (h : F.Marked c) (hc : c.LeadsTo c') : F.Marked c' := by
  rcases h with h | ⟨t, ht, hw⟩
  · exact .inl h
  · exact .inr ⟨t, hc.mem_past ht, hw⟩

lemma Inside.of_leadsTo (h : F.Inside c') (hc : c.LeadsTo c') : F.Inside c := by
  rcases h with h | h
  · exact .inl h
  · refine .inr fun hr => h ?_
    exact List.suffix_nil.1 (hr ▸ hc.suffix)

lemma rest_cursor_of_cons {t : Token} {ts : List Token} (h : c.rest = t :: ts) :
    (F.cursor c).rest = t.relocate F.move :: (ts.map (Token.relocate F.move) ++ F.after) := by
  simp [cursor, h]

lemma Inside.after_eq_nil (hi : F.Inside c) (h : c.rest = []) : F.after = [] :=
  hi.resolve_right fun hne => hne h

lemma Inside.rest_cursor_of_nil (hi : F.Inside c) (h : c.rest = []) : (F.cursor c).rest = [] := by
  simp [cursor, h, hi.after_eq_nil h]

lemma cursor_next {t : Token} {ts : List Token} (h : c.rest = t :: ts) :
    (F.cursor c).next = F.cursor c.next := by
  simp [Cursor.next, cursor, h]

lemma Inside.cursor_next (hi : F.Inside c.next) : (F.cursor c).next = F.cursor c.next := by
  cases hr : c.rest with
  | nil =>
    have ha := (hi.of_leadsTo c.leadsTo_next).after_eq_nil hr
    simp [Cursor.next, cursor, hr, ha]
  | cons t ts => exact Frame.cursor_next hr

lemma Inside.front_cursor (hi : F.Inside c) : front (F.cursor c).rest = front c.rest := by
  cases hr : c.rest with
  | nil => rw [hi.rest_cursor_of_nil hr]
  | cons t ts => rw [rest_cursor_of_cons hr]; rfl

lemma Inside.token_cursor (hi : F.Inside c) :
    (F.cursor c).token = c.token.relocate F.move := by
  cases hr : c.rest with
  | nil =>
    rw [Cursor.token, Cursor.token, hi.rest_cursor_of_nil hr, hr]
    simp [Token.eof, Token.relocate, F.move_unknown]
  | cons t ts => rw [Cursor.token_of_rest (rest_cursor_of_cons hr), Cursor.token_of_rest hr]

lemma skipOver_relocate {rest us : List Token} {f : Int → Int} (h : us = [] ∨ skip rest ≠ [])
    (past before : List Token) :
    Cursor.skipOver (past.map (Token.relocate f) ++ before) (rest.map (Token.relocate f) ++ us) =
      ((Cursor.skipOver past rest).1.map (Token.relocate f) ++ before,
        (Cursor.skipOver past rest).2.map (Token.relocate f) ++ us) := by
  induction rest generalizing past with
  | nil =>
    have hu : us = [] := by simpa using h
    simp [Cursor.skipOver, hu]
  | cons t rest ih =>
    by_cases hw : t.isWhitespace = true
    · rw [Grammar.skip_cons_of_whitespace hw] at h
      simpa [Cursor.skipOver, hw] using ih h (t :: past)
    · simp [Cursor.skipOver, hw]

lemma Inside.cursor_skipWhitespace (hi : F.Inside c.skipWhitespace) :
    (F.cursor c).skipWhitespace = F.cursor c.skipWhitespace := by
  rw [Inside, Cursor.rest_skipWhitespace] at hi
  simp only [Cursor.skipWhitespace, cursor, skipOver_relocate hi]

lemma Inside.cursor_skipSpace (hi : F.Inside c.skipSpace) :
    (F.cursor c).skipSpace = F.cursor c.skipSpace := by
  rcases hr : c.rest with _ | ⟨⟨kind, pos⟩, ts⟩
  · have hs : c.skipSpace = c := by simp [Cursor.skipSpace, hr]
    rw [hs] at hi ⊢
    simp [Cursor.skipSpace, hi.rest_cursor_of_nil hr]
  · have hrc := rest_cursor_of_cons (F := F) hr
    cases kind with
    | space => simpa [Cursor.skipSpace, hr, hrc, Token.relocate] using Frame.cursor_next hr
    | _ => simp [Cursor.skipSpace, hr, hrc, Token.relocate]

lemma Inside.level_cursor (hi : F.Inside c) (prec : Precedence) :
    (F.cursor c).level prec = c.level prec := by
  rw [Cursor.level_eq, Cursor.level_eq, levelOf, levelOf, hi.front_cursor]

lemma Inside.atEnd_cursor (hi : F.Inside c) : (F.cursor c).atEnd = c.atEnd := by
  cases hr : c.rest with
  | nil => simp [Cursor.atEnd, hi.rest_cursor_of_nil hr, hr]
  | cons t ts => rw [Cursor.atEnd_of_rest (rest_cursor_of_cons hr), Cursor.atEnd_of_rest hr]

lemma Inside.errorPos_cursor (hi : F.Inside c) (hf : F.Fits c) :
    (F.cursor c).errorPos = F.move c.errorPos := by
  rcases hr : c.rest with _ | ⟨t, ts⟩
  · have ha := hi.after_eq_nil hr
    rcases hp : c.past with _ | ⟨t, past⟩
    · have hb : F.before = [] := by simpa [Fits, hr, hp] using hf
      simp [Cursor.errorPos, hr, hp, cursor, ha, hb, F.move_unknown]
    · simp [Cursor.errorPos, hr, hp, cursor, ha]
  · simp [Cursor.errorPos, hr, cursor]

lemma Marked.lastPos_cursor (hm : F.Marked c) : (F.cursor c).lastPos = F.move c.lastPos := by
  have hp : (c.past.map (Token.relocate F.move)).find? (fun t => !t.isWhitespace) =
      (c.past.find? fun t => !t.isWhitespace).map (Token.relocate F.move) := by
    rw [List.find?_map]
    rfl
  simp only [Cursor.lastPos, cursor, List.find?_append, hp]
  cases hq : c.past.find? fun t => !t.isWhitespace with
  | some t => rfl
  | none =>
    rcases hm with hb | ⟨t, ht, hw⟩
    · simp [hb, F.move_unknown]
    · exact absurd (List.find?_eq_none.1 hq t ht) (by simp [hw])

/-- The result of a run, within the larger stream. -/
def result {α β : Type} (F : Frame) (φ : α → β) :
    EStateM.Result SyntaxError Cursor α → EStateM.Result SyntaxError Cursor β
  | .ok x c    => .ok (φ x) (F.cursor c)
  | .error e c => .error (e.relocate F.move) (F.cursor c)

/-- A run has come to its result without looking at the end of the stream if something stands
there, and without using up its budget. -/
def Decides {α : Type} (F : Frame) : EStateM.Result SyntaxError Cursor α → Prop
  | .ok _ c    => F.Inside c
  | .error e c => F.Inside c ∧ e.cause ≠ .outOfBudget

end Frame

/-! ### Parsers within frames -/

namespace Parser

/-- Where a run has left the cursor. -/
def final {α : Type} : EStateM.Result SyntaxError Cursor α → Cursor
  | .ok _ c    => c
  | .error _ c => c

/-- From a cursor on, a parser goes forward, its errors are about tokens of the stream, and what it
decides is what another one does within the larger stream. -/
structure FramedAt {α β : Type} (F : Frame) (φ : α → β) (p : Parser α) (q : Parser β)
    (c : Cursor) : Prop where
  leadsTo : c.LeadsTo (final (p c))
  knows : c.stream ≠ [] → ∀ e c₁, p c = .error e c₁ → c.Knows e.pos
  run_eq : F.Decides (p c) → q (F.cursor c) = F.result φ (p c)

/-- The same from every cursor on whose stream has a token. -/
def Framed {α β : Type} (F : Frame) (φ : α → β) (p : Parser α) (q : Parser β) : Prop :=
  ∀ c, F.Fits c → FramedAt F φ p q c

variable {α β γ δ : Type} {F : Frame} {c : Cursor} {φ : α → β} {ψ : γ → δ}

lemma framedAt_of_ok {p : Parser α} {q : Parser β} {x : α} {c₁ : Cursor} (hp : p c = .ok x c₁)
    (hl : c.LeadsTo c₁) (hq : F.Inside c₁ → q (F.cursor c) = .ok (φ x) (F.cursor c₁)) :
    FramedAt F φ p q c := by
  constructor
  · rwa [hp]
  · intro _ e c₂ he
    rw [hp] at he
    cases he
  · intro hd
    rw [hp] at hd ⊢
    exact hq hd

lemma framedAt_of_error {p : Parser α} {q : Parser β} {e : SyntaxError} {c₁ : Cursor}
    (hp : p c = .error e c₁) (hl : c.LeadsTo c₁) (hk : c.stream ≠ [] → c.Knows e.pos)
    (hq : F.Inside c₁ → q (F.cursor c) = .error (e.relocate F.move) (F.cursor c₁)) :
    FramedAt F φ p q c := by
  constructor
  · rwa [hp]
  · intro hne e' c₂ he
    rw [hp] at he
    cases he
    exact hk hne
  · intro hd
    rw [hp] at hd ⊢
    exact hq hd.1

lemma FramedAt.bind {p : Parser α} {q : Parser β} {f : α → Parser γ} {g : β → Parser δ}
    (hp : FramedAt F φ p q c)
    (hf : ∀ x c₁, p c = .ok x c₁ → c.LeadsTo c₁ → FramedAt F ψ (f x) (g (φ x)) c₁) :
    FramedAt F ψ (p >>= f) (q >>= g) c := by
  obtain ⟨hlead, hknows, hrun⟩ := hp
  cases h : p c with
  -- the first parser fails: nothing that follows it is run
  | error e c₁ =>
    rw [h] at hlead hrun
    constructor
    · rwa [bind_of_error h]
    · intro hne e' c₂ he
      rw [bind_of_error h] at he
      cases he
      exact hknows hne e c₁ h
    · intro hd
      rw [bind_of_error h] at hd ⊢
      exact bind_of_error (hrun hd)
  -- where the whole run ends inside, the part up to the second parser does too
  | ok x c₁ =>
    rw [h] at hlead hrun
    obtain ⟨hlead₁, hknows₁, hrun₁⟩ := hf x c₁ h hlead
    constructor
    · rw [bind_of_ok h]
      exact hlead.trans hlead₁
    · intro hne e c₂ he
      rw [bind_of_ok h] at he
      rw [← hlead.stream_eq] at hne
      exact hlead.knows (hknows₁ hne e c₂ he)
    · intro hd
      rw [bind_of_ok h] at hd ⊢
      have hi : F.Inside (final (f x c₁)) := by
        cases hx : f x c₁ with
        | ok y c₂ => rwa [hx] at hd
        | error e c₂ => rw [hx] at hd; exact hd.1
      rw [bind_of_ok (hrun (hi.of_leadsTo hlead₁))]
      exact hrun₁ hd

lemma Framed.bind {p : Parser α} {q : Parser β} {f : α → Parser γ} {g : β → Parser δ}
    (hp : Framed F φ p q) (hf : ∀ x, Framed F ψ (f x) (g (φ x))) :
    Framed F ψ (p >>= f) (q >>= g) := by
  intro c hc
  exact (hp c hc).bind fun x c₁ _ hl => hf x c₁ (hc.leadsTo hl)

/-! ### Primitive steps -/

lemma framed_pure (x : α) : Framed F φ (pure x) (pure (φ x)) := by
  intro c _
  exact framedAt_of_ok rfl (.refl c) fun _ => rfl

lemma framedAt_failAt (cause : Cause) {pos : Int} (hk : c.Knows pos) :
    FramedAt F φ (failAt cause pos) (failAt cause (F.move pos)) c :=
  framedAt_of_error rfl (.refl c) (fun _ => hk) fun _ => rfl

lemma framed_fail (cause : Cause) : Framed F φ (fail cause) (fail cause) := by
  intro c hf
  refine framedAt_of_error rfl (.refl c) Cursor.knows_errorPos fun hi => ?_
  simp only [fail_apply, Cursor.error, SyntaxError.relocate, hi.errorPos_cursor hf]

/-- With no budget nothing is decided. -/
lemma framed_outOfBudget {q : Parser β} : Framed F φ (fail .outOfBudget) q := by
  intro c hf
  obtain ⟨hlead, hknows, -⟩ := framed_fail (φ := φ) .outOfBudget c hf
  exact ⟨hlead, hknows, fun hd => absurd rfl hd.2⟩

lemma framed_current : Framed F (Token.relocate F.move) current current := by
  intro c hf
  cases hr : c.rest with
  | nil =>
    refine framedAt_of_error (e := c.error .pastLastToken) (by simp [current_apply, hr]) (.refl c)
      Cursor.knows_errorPos fun hi => ?_
    simp [current_apply, hi.rest_cursor_of_nil hr, Cursor.error, SyntaxError.relocate,
      hi.errorPos_cursor hf]
  | cons t ts =>
    refine framedAt_of_ok (x := t) (by simp [current_apply, hr]) (.refl c) fun _ => ?_
    simp [current_apply, Frame.rest_cursor_of_cons hr]

lemma framed_token : Framed F (Token.relocate F.move) token token := by
  intro c _
  refine framedAt_of_ok rfl (.refl c) fun hi => ?_
  simp only [token_apply, hi.token_cursor]

lemma framed_next : Framed F id next next := by
  intro c _
  refine framedAt_of_ok rfl c.leadsTo_next fun hi => ?_
  simp only [next_apply, hi.cursor_next, id]

lemma framed_advance : Framed F id advance advance := by
  intro c hf
  cases hr : c.next.rest with
  | nil =>
    refine framedAt_of_error (e := c.next.error .unexpectedEnd) (by simp [advance_apply, hr])
      c.leadsTo_next (fun hne => ?_) fun hi => ?_
    · rw [← c.leadsTo_next.stream_eq] at hne
      exact c.leadsTo_next.knows (Cursor.knows_errorPos hne)
    have he := hi.errorPos_cursor (hf.leadsTo c.leadsTo_next)
    simp [advance_apply, hi.cursor_next, hi.rest_cursor_of_nil hr, Cursor.error,
      SyntaxError.relocate, he]
  | cons t ts =>
    refine framedAt_of_ok (x := ()) (by simp [advance_apply, hr]) c.leadsTo_next fun hi => ?_
    simp [advance_apply, hi.cursor_next, Frame.rest_cursor_of_cons hr]

lemma framed_skipWhitespace : Framed F id skipWhitespace skipWhitespace := by
  intro c _
  refine framedAt_of_ok rfl c.reaches_skipWhitespace.leadsTo fun hi => ?_
  simp only [skipWhitespace_apply, hi.cursor_skipWhitespace, id]

lemma framed_skipSpace : Framed F id skipSpace skipSpace := by
  intro c _
  refine framedAt_of_ok rfl c.reaches_skipSpace.leadsTo fun hi => ?_
  simp only [skipSpace_apply, hi.cursor_skipSpace, id]

lemma framed_atEnd : Framed F id atEnd atEnd := by
  intro c _
  refine framedAt_of_ok rfl (.refl c) fun hi => ?_
  simp only [atEnd_apply, hi.atEnd_cursor, id]

lemma framed_level (prec : Precedence) : Framed F id (level prec) (level prec) := by
  intro c _
  refine framedAt_of_ok rfl (.refl c) fun hi => ?_
  simp only [level_apply, hi.level_cursor, id]

lemma framedAt_lastPos (hm : F.Marked c) : FramedAt F F.move lastPos lastPos c := by
  refine framedAt_of_ok rfl (.refl c) fun _ => ?_
  simp only [lastPos_apply, hm.lastPos_cursor]

/-- A larger stream gives a larger budget. -/
lemma framed_withBudget {p : Nat → Parser α} {q : Nat → Parser β}
    (h : ∀ n m, n ≤ m → Framed F φ (p n) (q m)) : Framed F φ (withBudget p) (withBudget q) := by
  intro c hf
  have hle : 6 * c.rest.length + 6 ≤ 6 * (F.cursor c).rest.length + 6 := by
    simp [Frame.cursor]
  obtain ⟨hlead, hknows, hrun⟩ := h _ _ hle c hf
  exact ⟨hlead, hknows, hrun⟩

/-! ### Signatures -/

section Signatures

lemma framed_resultTypeName : Framed F id resultTypeName resultTypeName := by
  refine framed_token.bind fun ⟨kind, pos⟩ => ?_
  cases kind with
  | constant name => exact framed_next.bind fun _ => framed_pure _
  | _ => exact framed_fail _

lemma framed_resultType : Framed F id resultType resultType := by
  refine framed_current.bind fun ⟨kind, pos⟩ => ?_
  cases kind with
  | newline => exact framed_next.bind fun _ => framed_pure _
  | arrow => exact framed_next.bind fun _ => framed_resultTypeName
  | space =>
    refine framed_next.bind fun _ => framed_token.bind fun ⟨kind, pos⟩ => ?_
    cases kind with
    | arrow =>
      exact framed_next.bind fun _ => framed_skipSpace.bind fun _ => framed_resultTypeName
    | newline => exact framed_next.bind fun _ => framed_pure _
    | _ => exact framed_fail _
  | _ => exact framed_fail _

lemma framed_param : Framed F id param param := by
  refine framed_token.bind fun ⟨kind, pos⟩ => ?_
  cases kind with
  | identifier name =>
    refine framed_advance.bind fun _ => framed_skipSpace.bind fun _ => ?_
    refine framed_token.bind fun ⟨kind, pos⟩ => ?_
    cases kind with
    | constant type => exact framed_advance.bind fun _ => framed_pure _
    | _ => exact framed_fail _
  | _ => exact framed_fail _

lemma framed_params (n m : Nat) (hm : n ≤ m) (done : List Param) :
    Framed F id (params n done) (params m done) := by
  induction n generalizing m done with
  | zero => exact framed_outOfBudget
  | succ n ih =>
    obtain ⟨m, rfl⟩ : ∃ k, m = k + 1 := ⟨m - 1, by omega⟩
    refine framed_skipWhitespace.bind fun _ => framed_param.bind fun p => ?_
    refine framed_skipWhitespace.bind fun _ => framed_token.bind fun ⟨kind, pos⟩ => ?_
    cases kind with
    | rightParen => exact framed_next.bind fun _ => framed_pure _
    | comma => exact framed_next.bind fun _ => ih m (by omega) _
    | _ => exact framed_fail _

lemma framed_paramList : Framed F id paramList paramList := by
  refine framed_skipWhitespace.bind fun _ => framed_token.bind fun ⟨kind, pos⟩ => ?_
  cases kind with
  | rightParen => exact framed_next.bind fun _ => framed_pure _
  | _ => exact framed_withBudget fun n m hm => framed_params n m hm []

lemma framed_prototype : Framed F id prototype prototype := by
  refine framed_current.bind fun ⟨kind, pos⟩ => ?_
  cases kind with
  | space =>
    refine framed_next.bind fun _ => framed_token.bind fun ⟨kind, pos⟩ => ?_
    cases kind with
    | identifier name =>
      refine framed_advance.bind fun _ => framed_skipSpace.bind fun _ => ?_
      refine framed_token.bind fun ⟨kind, pos⟩ => ?_
      cases kind with
      | leftParen =>
        refine framed_next.bind fun _ => framed_paramList.bind fun ps => ?_
        exact framed_resultType.bind fun r => framed_pure _
      | newline => exact framed_next.bind fun _ => framed_pure _
      | _ => exact framed_fail _
    | _ => exact framed_fail _
  | _ => exact framed_fail _

end Signatures

/-! ### Expressions -/

section Expressions

variable {prec : Precedence} {n : Nat}

/-- Arguments and the offset behind them, moved. -/
def relocateArgs (f : Int → Int) (a : List Node × Int) : List Node × Int :=
  (a.1.map (Node.relocate f), f a.2)

/-- A parser of expressions with a budget does the same within a frame with every larger budget. -/
def Grows (F : Frame) (φ : α → α) (n : Nat) (p q : Nat → Scope → Parser α) : Prop :=
  ∀ m, n ≤ m → ∀ s, Framed F φ (p n s) (q m (s.relocate F.move))

/-- All parsers of expressions do so with a budget. -/
structure GrowsAll (F : Frame) (prec : Precedence) (n : Nat) : Prop where
  expr : Grows F (Node.relocate F.move) n (expr prec) (expr prec)
  unary : Grows F (Node.relocate F.move) n (unary prec) (unary prec)
  primary : Grows F (Node.relocate F.move) n (primary prec) (primary prec)
  atom : Grows F (Node.relocate F.move) n (atom prec) (atom prec)
  sends (x : Node) : Grows F (Node.relocate F.move) n (sends prec · · x)
    (sends prec · · (x.relocate F.move))
  named : Grows F (Node.relocate F.move) n (named prec) (named prec)
  argList : Grows F (relocateArgs F.move) n (argList prec) (argList prec)
  args (done : List Node) : Grows F (relocateArgs F.move) n (args prec · · done)
    (args prec · · (done.map (Node.relocate F.move)))
  paren : Grows F (Node.relocate F.move) n (paren prec) (paren prec)
  binary (least : Int) (x : Node) : Grows F (Node.relocate F.move) n (binary prec · · least x)
    (binary prec · · least (x.relocate F.move))
  tighter (cur ahead : Int) (x : Node) : Grows F (Node.relocate F.move) n
    (tighter prec · · cur ahead x) (tighter prec · · cur ahead (x.relocate F.move))

lemma growsAll_zero : GrowsAll F prec 0 := by
  constructor
  all_goals
    intros
    intro m _ s
    exact framed_outOfBudget

/-- A step of budget on both sides. -/
lemma grows_succ {φ : α → α} {p q : Nat → Scope → Parser α}
    (h : ∀ m, n ≤ m → ∀ s, Framed F φ (p (n + 1) s) (q (m + 1) (s.relocate F.move))) :
    Grows F φ (n + 1) p q := by
  intro m hm s
  obtain ⟨m, rfl⟩ : ∃ k, m = k + 1 := ⟨m - 1, by omega⟩
  exact h m (by omega) s

lemma GrowsAll.expr_succ (ih : GrowsAll F prec n) :
    Grows F (Node.relocate F.move) (n + 1) (Parser.expr prec) (Parser.expr prec) := by
  refine grows_succ fun m hm s => ?_
  refine (ih.unary m hm s).bind fun x => framed_skipWhitespace.bind fun _ => ?_
  exact ih.binary 0 x m hm s

lemma GrowsAll.unary_succ (ih : GrowsAll F prec n) :
    Grows F (Node.relocate F.move) (n + 1) (Parser.unary prec) (Parser.unary prec) := by
  refine grows_succ fun m hm s => framed_current.bind fun ⟨kind, pos⟩ => ?_
  cases kind with
  | operator op =>
    refine framed_advance.bind fun _ => (ih.unary m hm s).bind fun x => ?_
    rw [Node.stop_relocate]
    exact framed_pure (Node.call ⟨pos, x.stop⟩ _ [x])
  | _ => exact ih.primary m hm s

lemma GrowsAll.primary_succ (ih : GrowsAll F prec n) :
    Grows F (Node.relocate F.move) (n + 1) (Parser.primary prec) (Parser.primary prec) := by
  refine grows_succ fun m hm s => ?_
  refine (ih.atom m hm s).bind fun x => framed_skipWhitespace.bind fun _ => ?_
  refine framed_token.bind fun ⟨kind, pos⟩ => ?_
  cases kind with
  | dot => exact ih.sends x m hm s
  | _ => exact framed_pure x

lemma GrowsAll.atom_succ (ih : GrowsAll F prec n) :
    Grows F (Node.relocate F.move) (n + 1) (Parser.atom prec) (Parser.atom prec) := by
  refine grows_succ fun m hm s => framed_token.bind fun ⟨kind, pos⟩ => ?_
  cases kind with
  | identifier => exact ih.named m hm s
  | leftParen => exact ih.paren m hm s
  | number value => exact framed_next.bind fun _ => framed_pure (Node.int ⟨pos, pos⟩ value)
  | string value => exact framed_next.bind fun _ => framed_pure (Node.string ⟨pos, pos⟩ value)
  | selfWord => exact framed_next.bind fun _ => framed_pure (Node.selfRef ⟨pos, pos⟩)
  | _ => exact framed_fail _

lemma GrowsAll.sends_succ (ih : GrowsAll F prec n) (x : Node) :
    Grows F (Node.relocate F.move) (n + 1) (Parser.sends prec · · x)
      (Parser.sends prec · · (x.relocate F.move)) := by
  refine grows_succ fun m hm s => framed_token.bind fun ⟨kind, pos⟩ => ?_
  cases kind with
  | dot =>
    refine framed_next.bind fun _ => framed_token.bind fun ⟨kind, pos⟩ => ?_
    cases kind with
    | identifier =>
      refine (ih.named m hm s).bind fun y => framed_skipWhitespace.bind fun _ => ?_
      rw [Node.start_relocate, Node.stop_relocate]
      exact ih.sends (.send ⟨x.start, y.stop⟩ x y) m hm s
    | _ => exact framed_fail _
  | _ => exact framed_pure x

/-- A local variable without a type is reported at its name. -/
lemma framedAt_localVar (s : Scope) (name : Text) {pos : Int} (hk : c.Knows pos) :
    FramedAt F (Node.relocate F.move)
      (match s.classOf name with
        | .ok className => pure (.localVar ⟨pos, pos⟩ name (some (.undef className)))
        | .error cause => failAt cause pos)
      (match (s.relocate F.move).classOf name with
        | .ok className =>
          pure (.localVar ⟨F.move pos, F.move pos⟩ name (some (.undef className)))
        | .error cause => failAt cause (F.move pos)) c := by
  rw [Scope.classOf_relocate]
  cases s.classOf name with
  | ok className =>
    exact framedAt_of_ok rfl (.refl c) fun _ => rfl
  | error cause => exact framedAt_failAt cause hk

lemma GrowsAll.named_succ (ih : GrowsAll F prec n) :
    Grows F (Node.relocate F.move) (n + 1) (Parser.named prec) (Parser.named prec) := by
  refine grows_succ fun m hm s c hf => (framed_token c hf).bind fun t c₁ ht _ => ?_
  obtain ⟨rfl, rfl⟩ := token_eq_ok.1 ht
  -- what follows the name decides among the three forms, so the stream is opened up to it
  rcases hr : c.rest with _ | ⟨⟨kind, pos⟩, ts⟩
  · have he : c.token = .eof := by rw [Cursor.token, hr]; rfl
    rw [he]
    exact framed_fail _ c hf
  rw [Cursor.token_of_rest hr]
  cases kind with
  | identifier name =>
    refine (framed_next c hf).bind fun _ c₁ _ hl₁ => ?_
    refine (framed_skipWhitespace c₁ (hf.leadsTo hl₁)).bind fun _ c₂ _ hl₂ => ?_
    refine (framed_token c₂ (hf.leadsTo (hl₁.trans hl₂))).bind fun t c₃ _ hl₃ => ?_
    obtain ⟨kind, pos'⟩ := t
    have hl := (hl₁.trans hl₂).trans hl₃
    have hk : c₃.Knows pos := by
      rw [Cursor.Knows, hl.stream_eq]
      exact Cursor.knows_of_rest hr
    cases kind with
    | leftParen =>
      refine framed_advance.bind (fun _ => (ih.argList m hm s).bind fun args => ?_) c₃
        (hf.leadsTo hl)
      obtain ⟨xs, stop⟩ := args
      have h := framed_pure (F := F) (φ := Node.relocate F.move) (Node.call ⟨pos, stop⟩ name xs)
      rwa [Node.relocate, Node.relocateAll_eq_map] at h
    | assign =>
      refine framed_advance.bind (fun _ => framed_skipWhitespace.bind fun _ => ?_) c₃
        (hf.leadsTo hl)
      refine (ih.expr m hm s).bind fun x => ?_
      rw [Node.stop_relocate]
      exact framed_pure (Node.assign ⟨pos, x.stop⟩ name x)
    | _ => exact framedAt_localVar s name hk
  | _ => exact framed_fail _ c hf

lemma GrowsAll.argList_succ (ih : GrowsAll F prec n) :
    Grows F (relocateArgs F.move) (n + 1) (Parser.argList prec) (Parser.argList prec) := by
  refine grows_succ fun m hm s => framed_skipWhitespace.bind fun _ => ?_
  refine framed_token.bind fun ⟨kind, pos⟩ => ?_
  cases kind with
  | rightParen => exact framed_next.bind fun _ => framed_pure ([], pos)
  | _ => exact ih.args [] m hm s

lemma GrowsAll.args_succ (ih : GrowsAll F prec n) (done : List Node) :
    Grows F (relocateArgs F.move) (n + 1) (Parser.args prec · · done)
      (Parser.args prec · · (done.map (Node.relocate F.move))) := by
  refine grows_succ fun m hm s => framed_skipWhitespace.bind fun _ => ?_
  refine (ih.expr m hm s).bind fun x => framed_skipWhitespace.bind fun _ => ?_
  refine framed_token.bind fun ⟨kind, pos⟩ => ?_
  cases kind with
  | rightParen =>
    refine framed_next.bind fun _ => ?_
    have h := framed_pure (F := F) (φ := relocateArgs F.move) ((x :: done).reverse, pos)
    rwa [relocateArgs, List.map_reverse] at h
  | comma => exact framed_next.bind fun _ => ih.args (x :: done) m hm s
  | _ => exact framed_fail _

lemma GrowsAll.paren_succ (ih : GrowsAll F prec n) :
    Grows F (Node.relocate F.move) (n + 1) (Parser.paren prec) (Parser.paren prec) := by
  refine grows_succ fun m hm s => framed_current.bind fun ⟨kind, pos⟩ => ?_
  cases kind with
  | leftParen =>
    refine framed_advance.bind fun _ => (ih.expr m hm s).bind fun x => ?_
    refine framed_skipWhitespace.bind fun _ => framed_current.bind fun ⟨kind, pos⟩ => ?_
    cases kind with
    | rightParen => exact framed_advance.bind fun _ => framed_pure x
    | _ => exact framed_fail _
  | _ => exact framed_fail _

lemma GrowsAll.binary_succ (ih : GrowsAll F prec n) (least : Int) (x : Node) :
    Grows F (Node.relocate F.move) (n + 1) (Parser.binary prec · · least x)
      (Parser.binary prec · · least (x.relocate F.move)) := by
  refine grows_succ fun m hm s => framed_token.bind fun t => ?_
  have hkind : (t.relocate F.move).kind = t.kind := rfl
  by_cases hend : t.kind = .endWord
  · rw [if_pos hend, if_pos (hkind.trans hend)]
    exact framed_pure x
  rw [if_neg hend, if_neg (hkind.trans_ne hend)]
  refine (framed_level prec).bind fun cur => framed_atEnd.bind fun done => ?_
  simp only [id]
  split_ifs with hd
  · exact framed_pure x
  · refine framed_token.bind fun ⟨kind, pos⟩ => ?_
    cases kind with
    | operator op =>
      refine framed_advance.bind fun _ => framed_skipWhitespace.bind fun _ => ?_
      refine (ih.unary m hm s).bind fun y => (framed_level prec).bind fun ahead => ?_
      refine framed_skipWhitespace.bind fun _ => (ih.tighter cur ahead y m hm s).bind fun z => ?_
      rw [Node.start_relocate, Node.stop_relocate]
      exact ih.binary least (.binary ⟨x.start, z.stop⟩ op x z) m hm s
    | _ => exact framed_fail _

lemma GrowsAll.tighter_succ (ih : GrowsAll F prec n) (cur ahead : Int) (x : Node) :
    Grows F (Node.relocate F.move) (n + 1) (Parser.tighter prec · · cur ahead x)
      (Parser.tighter prec · · cur ahead (x.relocate F.move)) := by
  refine grows_succ fun m hm s => ?_
  simp only [Parser.tighter, raising_eq, routine_eq]
  split_ifs with h
  · exact ih.binary (cur + 1) x m hm s
  · exact framed_pure x

lemma growsAll (F : Frame) (prec : Precedence) (n : Nat) : GrowsAll F prec n := by
  induction n with
  | zero => exact growsAll_zero
  | succ n ih =>
    exact ⟨ih.expr_succ, ih.unary_succ, ih.primary_succ, ih.atom_succ, ih.sends_succ,
      ih.named_succ, ih.argList_succ, ih.args_succ, ih.paren_succ, ih.binary_succ, ih.tighter_succ⟩

lemma framed_expression (s : Scope) :
    Framed F (Node.relocate F.move) (expression prec s) (expression prec (s.relocate F.move)) :=
  framed_withBudget fun n m hm => (growsAll F prec n).expr m hm s

end Expressions

/-! ### Definitions and blocks -/

section Blocks

open Grammar (Block Entry opening)

variable {prec : Precedence}

lemma framed_statements (n m : Nat) (hm : n ≤ m) (proto : Prototype) (done : List Node) :
    Framed F (List.map (Node.relocate F.move)) (statements prec n proto done)
      (statements prec m proto (done.map (Node.relocate F.move))) := by
  induction n generalizing m done with
  | zero => exact framed_outOfBudget
  | succ n ih =>
    obtain ⟨m, rfl⟩ : ∃ k, m = k + 1 := ⟨m - 1, by omega⟩
    refine framed_skipWhitespace.bind fun _ => framed_current.bind fun ⟨kind, pos⟩ => ?_
    cases kind with
    | endWord =>
      cases done with
      | nil => exact framed_pure []
      | cons x done =>
        refine framed_next.bind fun _ => ?_
        have h := framed_pure (F := F) (φ := List.map (Node.relocate F.move)) (x :: done).reverse
        rwa [List.map_reverse] at h
    | _ => exact (framed_expression ⟨proto.params, done⟩).bind fun x => ih m (by omega) (x :: done)

/-- A definition ends inside its stream, since its `def` is there. -/
lemma framedAt_definition {className implName : Text} {pos : Int} {ts : List Token}
    (hr : c.rest = ⟨.defWord, pos⟩ :: ts) :
    FramedAt F (Definition.relocate F.move) (definition prec className implName)
      (definition prec className implName) c := by
  have hf : F.Fits c := .inr (.inr (by simp [hr]))
  refine (framed_token c hf).bind fun t c₁ ht _ => ?_
  obtain ⟨rfl, rfl⟩ := token_eq_ok.1 ht
  refine (framed_next c hf).bind fun _ c₂ hn hl => ?_
  obtain rfl := next_eq_ok.1 hn
  have hm : F.Marked c.next := .inr ⟨⟨.defWord, pos⟩, by simp [Cursor.next, hr], rfl⟩
  have hf₂ := hf.leadsTo hl
  refine (framed_prototype _ hf₂).bind fun proto c₃ _ hl₃ => ?_
  refine (framed_skipWhitespace _ (hf₂.leadsTo hl₃)).bind fun _ c₄ _ hl₄ => ?_
  have hbody : Framed F (List.map (Node.relocate F.move))
      (withBudget fun n => statements prec n proto [])
      (withBudget fun n => statements prec n proto []) :=
    framed_withBudget fun n m hm => framed_statements n m hm proto []
  refine (hbody _ (hf₂.leadsTo (hl₃.trans hl₄))).bind fun body c₅ _ hl₅ => ?_
  have hl₆ := (hl₃.trans hl₄).trans hl₅
  refine (framedAt_lastPos (hm.leadsTo hl₆)).bind fun stop c₆ _ hl₆' => ?_
  exact framed_pure (φ := Definition.relocate F.move) ⟨⟨c.token.pos, stop⟩, _, proto, body, _, _⟩ c₆
    (hf₂.leadsTo (hl₆.trans hl₆'))

lemma framed_blockName (noName noNewline : Cause) :
    Framed F id (blockName noName noNewline) (blockName noName noNewline) := by
  refine framed_skipSpace.bind fun _ => framed_current.bind fun ⟨kind, pos⟩ => ?_
  cases kind with
  | constant name =>
    refine framed_advance.bind fun _ => framed_skipSpace.bind fun _ => ?_
    refine framed_token.bind fun ⟨kind, pos⟩ => ?_
    cases kind with
    | newline => exact framed_next.bind fun _ => framed_pure _
    | _ => exact framed_fail _
  | _ => exact framed_fail _

lemma framed_opening (noName noNewline : Cause) {inner : Text → Block}
    (h : ∀ name n m, n ≤ m → Framed F (List.map (Definition.relocate F.move))
      ((inner name).run prec n []) ((inner name).run prec m [])) :
    Framed F (List.map (Definition.relocate F.move)) (opening prec noName noNewline inner)
      (opening prec noName noNewline inner) := by
  refine framed_next.bind fun _ => (framed_blockName noName noNewline).bind fun name => ?_
  exact framed_withBudget (h name)

/-- A block does the same within a frame, behind other definitions that are there already. -/
theorem framed_run (b : Block) (n m : Nat) (hm : n ≤ m) (front done : List Definition) :
    Framed F (fun ds => front ++ ds.map (Definition.relocate F.move)) (b.run prec n done)
      (b.run prec m (done.map (Definition.relocate F.move) ++ front.reverse)) := by
  -- the blocks inside are taken care of by the nesting, the entries by the budget
  induction b using Block.nesting_induction generalizing n m front done with
  | step b ihb =>
    induction n generalizing m done with
    | zero =>
      rw [Block.run_zero]
      exact framed_outOfBudget
    | succ n ih =>
      obtain ⟨m, rfl⟩ : ∃ k, m = k + 1 := ⟨m - 1, by omega⟩
      have hdone : Framed F (fun ds => front ++ ds.map (Definition.relocate F.move))
          (pure done.reverse)
          (pure (done.map (Definition.relocate F.move) ++ front.reverse).reverse) := by
        rw [List.reverse_append, List.reverse_reverse, ← List.map_reverse]
        exact framed_pure done.reverse
      rw [Block.run_succ, Block.run_succ]
      refine framed_skipWhitespace.bind fun _ => framed_atEnd.bind fun finished => ?_
      simp only [id]
      split_ifs with hf
      · exact hdone
      intro c hc
      refine (framed_current c hc).bind fun t c₁ ht _ => ?_
      obtain ⟨⟨ts, hr⟩, rfl⟩ := current_eq_ok.1 ht
      rw [Token.kind_relocate]
      cases he : b.entry t.kind with
      | definition =>
        have hr' : c.rest = ⟨.defWord, t.pos⟩ :: ts := by rw [hr, ← Grammar.defWord_of_entry he]
        refine (framedAt_definition hr').bind fun d c₁ _ hl => ?_
        exact ih m (by omega) (d :: done) c₁ (hc.leadsTo hl)
      | ending => exact framed_next.bind (fun _ => hdone) c hc
      | nested noName noNewline inner =>
        refine (framed_opening noName noNewline ?_).bind (fun ds => ?_) c hc
        · intro name n m hm
          exact ihb _ name _ (Grammar.opens_of_entry he name) n m hm [] []
        · have h := ih m (by omega) (ds.reverse ++ done)
          rwa [List.map_append, List.append_assoc, List.map_reverse] at h
      | stray cause => exact framed_fail cause c hc

lemma framed_definitions (prec : Precedence) :
    Framed F (List.map (Definition.relocate F.move)) (definitions prec) (definitions prec) :=
  framed_withBudget fun n m hm => framed_run .top n m hm [] []

end Blocks

end Parser

end Frontend
