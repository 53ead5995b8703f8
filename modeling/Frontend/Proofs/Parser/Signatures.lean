import Frontend.Parser.Prototype
import Frontend.Proofs.Parser.Cursor

/-!
# The grammar of signatures

What stands behind the word `def`, as relations between the tokens ahead, what they are read as
and the tokens that are left. Whitespace is free inside the parentheses of the parameters and
nowhere else: between other tokens there is at most one blank run.

`Reader` ties a parser to such a relation in both directions.
-/

namespace Frontend

open Grammar (skip skipBlank front)

/-- A parser succeeds exactly where a relation says, with the value and the rest it gives. -/
structure Reader {α : Type} (p : Parser α) (R : List Token → α → List Token → Prop) : Prop where
  sound {c c' : Cursor} {x : α} : p c = .ok x c' → R c.rest x c'.rest ∧ c.Reaches c'
  complete {c : Cursor} {x : α} {rest : List Token} :
    R c.rest x rest → ∃ c', p c = .ok x c' ∧ c'.rest = rest

namespace Grammar

/-! ### Relations -/

/-- The parameters up to the closing parenthesis. -/
inductive ReadsParams : List Token → List Param → List Token → Prop
  | last {ts ts₁ ts₂ ts₃ : List Token} {name type : Text} {pos pos' pos'' : Int}
      (hn : skip ts = ⟨.identifier name, pos⟩ :: ts₁)
      (ht : skipBlank ts₁ = ⟨.constant type, pos'⟩ :: ts₂)
      (hr : skip ts₂ = ⟨.rightParen, pos''⟩ :: ts₃) :
      ReadsParams ts [⟨name, some (.named type)⟩] ts₃
  | cons {ts ts₁ ts₂ ts₃ rest : List Token} {ps : List Param} {name type : Text}
      {pos pos' pos'' : Int} (hn : skip ts = ⟨.identifier name, pos⟩ :: ts₁)
      (ht : skipBlank ts₁ = ⟨.constant type, pos'⟩ :: ts₂)
      (hc : skip ts₂ = ⟨.comma, pos''⟩ :: ts₃) (hp : ReadsParams ts₃ ps rest) :
      ReadsParams ts (⟨name, some (.named type)⟩ :: ps) rest

/-- What follows the parameters. -/
inductive ReadsResult : List Token → Option BaseType → List Token → Prop
  | none {ts ts₁ : List Token} {pos : Int} (hn : skipBlank ts = ⟨.newline, pos⟩ :: ts₁) :
      ReadsResult ts none ts₁
  /-- Without a blank in front of the arrow there can be none behind it. -/
  | tight {ts : List Token} {type : Text} {pos pos' : Int} :
      ReadsResult (⟨.arrow, pos⟩ :: ⟨.constant type, pos'⟩ :: ts) (some (.named type)) ts
  | spaced {ts ts₁ : List Token} {type : Text} {pos pos' pos'' : Int}
      (ht : skipBlank ts = ⟨.constant type, pos''⟩ :: ts₁) :
      ReadsResult (⟨.space, pos⟩ :: ⟨.arrow, pos'⟩ :: ts) (some (.named type)) ts₁

/-- The signature behind the word `def`. -/
inductive ReadsPrototype : List Token → Prototype → List Token → Prop
  | bare {ts ts₁ : List Token} {name : Text} {pos pos' pos'' : Int}
      (hn : skipBlank ts = ⟨.newline, pos''⟩ :: ts₁) :
      ReadsPrototype (⟨.space, pos⟩ :: ⟨.identifier name, pos'⟩ :: ts) { name := name } ts₁
  | empty {ts ts₁ ts₂ ts₃ : List Token} {name : Text} {r : Option BaseType}
      {pos pos' posl posr : Int} (hl : skipBlank ts = ⟨.leftParen, posl⟩ :: ts₁)
      (hr : skip ts₁ = ⟨.rightParen, posr⟩ :: ts₂) (ht : ReadsResult ts₂ r ts₃) :
      ReadsPrototype (⟨.space, pos⟩ :: ⟨.identifier name, pos'⟩ :: ts)
        { name := name, result := r } ts₃
  | full {ts ts₁ ts₂ ts₃ : List Token} {name : Text} {ps : List Param} {r : Option BaseType}
      {pos pos' posl : Int} (hl : skipBlank ts = ⟨.leftParen, posl⟩ :: ts₁)
      (hp : ReadsParams ts₁ ps ts₂) (ht : ReadsResult ts₂ r ts₃) :
      ReadsPrototype (⟨.space, pos⟩ :: ⟨.identifier name, pos'⟩ :: ts)
        { name := name, params := ps, result := r } ts₃

/-! ### Progress -/

section Progress

variable {ts rest : List Token}

lemma ReadsParams.suffix {ps : List Param} (h : ReadsParams ts ps rest) : rest <:+ ts := by
  induction h with
  | last hn ht hr =>
    exact ((suffix_of_skip hr).trans (suffix_of_skipBlank ht)).trans (suffix_of_skip hn)
  | cons hn ht hc _ ih =>
    exact ((ih.trans (suffix_of_skip hc)).trans (suffix_of_skipBlank ht)).trans (suffix_of_skip hn)

lemma ReadsResult.suffix {r : Option BaseType} (h : ReadsResult ts r rest) : rest <:+ ts := by
  cases h with
  | none hn => exact suffix_of_skipBlank hn
  | tight => exact (List.suffix_cons _ _).trans (List.suffix_cons _ _)
  | spaced ht =>
    exact (suffix_of_skipBlank ht).trans ((List.suffix_cons _ _).trans (List.suffix_cons _ _))

lemma ReadsPrototype.suffix {p : Prototype} (h : ReadsPrototype ts p rest) : rest <:+ ts := by
  cases h with
  | bare hn =>
    exact (suffix_of_skipBlank hn).trans ((List.suffix_cons _ _).trans (List.suffix_cons _ _))
  | empty hl hr ht =>
    exact ((ht.suffix.trans (suffix_of_skip hr)).trans (suffix_of_skipBlank hl)).trans
      ((List.suffix_cons _ _).trans (List.suffix_cons _ _))
  | full hl hp ht =>
    exact ((ht.suffix.trans hp.suffix).trans (suffix_of_skipBlank hl)).trans
      ((List.suffix_cons _ _).trans (List.suffix_cons _ _))

/-- A signature is not empty. -/
lemma ReadsPrototype.length_lt {p : Prototype} (h : ReadsPrototype ts p rest) :
    rest.length < ts.length := by
  cases h with
  | bare hn =>
    have h₁ := length_of_skipBlank hn
    simp only [List.length_cons]
    omega
  | empty hl hr ht =>
    have h₁ := length_of_skipBlank hl
    have h₂ := length_of_skip hr
    have h₃ := ht.suffix.length_le
    simp only [List.length_cons]
    omega
  | full hl hps ht =>
    have h₁ := length_of_skipBlank hl
    have h₂ := hps.suffix.length_le
    have h₃ := ht.suffix.length_le
    simp only [List.length_cons]
    omega

end Progress

/-! ### Steps -/

variable {c c' : Cursor}

open Frontend.Parser

lemma param_eq_ok {p : Param} :
    param c = .ok p c' ↔ ∃ name type pos pos' ts, c.rest = ⟨.identifier name, pos⟩ :: ts ∧
      skipBlank ts = ⟨.constant type, pos'⟩ :: c'.rest ∧ c'.rest ≠ [] ∧
      p = ⟨name, some (.named type)⟩ ∧ c' = c.next.skipSpace.next := by
  simp only [param, bind_eq_ok, token_eq_ok]
  constructor
  · rintro ⟨t, c₁, ⟨rfl, rfl⟩, h⟩
    generalize hk : c.token.kind = kind at h
    split at h
    case h_2 => exact (fail_eq_ok.1 h).elim
    case h_1 name =>
      obtain ⟨pos, ts, hr⟩ := exists_cons_of_front hk (by simp)
      simp only [bind_eq_ok, advance_eq_ok, skipSpace_eq_ok, token_eq_ok] at h
      obtain ⟨-, c₁, ⟨-, rfl⟩, -, c₂, rfl, u, c₃, ⟨rfl, rfl⟩, h⟩ := h
      generalize hk' : c.next.skipSpace.token.kind = kind at h
      split at h
      case h_2 => exact (fail_eq_ok.1 h).elim
      case h_1 type =>
        obtain ⟨pos', ts', hr'⟩ := exists_cons_of_front hk' (by simp)
        simp only [bind_eq_ok, advance_eq_ok, pure_eq_ok] at h
        obtain ⟨-, c₄, ⟨hne, rfl⟩, rfl, rfl⟩ := h
        refine ⟨name, type, pos, pos', ts, hr, ?_, hne, rfl, rfl⟩
        rw [Cursor.rest_next hr', ← hr', Cursor.rest_skipSpace, Cursor.rest_next hr]
  · rintro ⟨name, type, pos, pos', ts, hr, ht, hne, rfl, rfl⟩
    have hr' : c.next.skipSpace.rest = ⟨.constant type, pos'⟩ :: c.next.skipSpace.next.rest := by
      rw [Cursor.rest_skipSpace, Cursor.rest_next hr, ht]
    refine ⟨_, c, ⟨Cursor.token_of_rest hr, rfl⟩, ?_⟩
    simp only [bind_eq_ok, advance_eq_ok, skipSpace_eq_ok, token_eq_ok]
    refine ⟨(), _, ⟨?_, rfl⟩, (), _, rfl, _, _, ⟨Cursor.token_of_rest hr', rfl⟩, ?_⟩
    · rw [Cursor.rest_next hr]
      exact ne_nil_of_skipBlank ht
    · simp only [bind_eq_ok, advance_eq_ok, pure_eq_ok]
      exact ⟨(), _, ⟨hne, rfl⟩, trivial, rfl⟩

/-! ### Parameters -/

/-- A parameter at the cursor, between whitespace, and what stands behind it. -/
lemma reaches_param {p : Param} (h : param c.skipWhitespace = .ok p c') :
    ∃ name type pos pos' ts, skip c.rest = ⟨.identifier name, pos⟩ :: ts ∧
      skipBlank ts = ⟨.constant type, pos'⟩ :: c'.rest ∧ p = ⟨name, some (.named type)⟩ ∧
      c.Reaches c'.skipWhitespace := by
  obtain ⟨name, type, pos, pos', ts, hn, ht, -, rfl, rfl⟩ := param_eq_ok.1 h
  have hr : c.skipWhitespace.next.skipSpace.rest =
      ⟨.constant type, pos'⟩ :: c.skipWhitespace.next.skipSpace.next.rest := by
    rw [Cursor.rest_skipSpace, Cursor.rest_next hn, ht]
  have r := ((Cursor.reaches_next hn).trans (Cursor.reaches_skipSpace _)).trans
    (Cursor.reaches_next hr)
  rw [Cursor.rest_skipWhitespace] at hn
  exact ⟨name, type, pos, pos', ts, hn, ht, rfl,
    (c.reaches_skipWhitespace.trans r).trans (Cursor.reaches_skipWhitespace _)⟩

lemma reads_of_params {n : Nat} {done ps : List Param} (h : params n done c = .ok ps c') :
    ∃ qs, ps = done.reverse ++ qs ∧ ReadsParams c.rest qs c'.rest ∧ c.Reaches c' := by
  induction n generalizing done c with
  | zero => simp only [params, fail_eq_ok] at h
  | succ n ih =>
    simp only [params, bind_eq_ok, skipWhitespace_eq_ok, token_eq_ok] at h
    obtain ⟨-, c₁, rfl, p, c₂, hp, -, c₃, rfl, t, c₄, ⟨rfl, rfl⟩, h⟩ := h
    obtain ⟨name, type, pos, pos', ts, hn, ht, rfl, r⟩ := reaches_param hp
    generalize hk : c₂.skipWhitespace.token.kind = kind at h
    split at h
    case h_3 => exact (fail_eq_ok.1 h).elim
    -- the last parameter
    case h_1 =>
      obtain ⟨pos'', ts', hr⟩ := exists_cons_of_front hk (by simp)
      simp only [bind_eq_ok, next_eq_ok, pure_eq_ok] at h
      obtain ⟨-, c₅, rfl, rfl, rfl⟩ := h
      have hl : skip c₂.rest = ⟨.rightParen, pos''⟩ :: c₂.skipWhitespace.next.rest := by
        rw [Cursor.rest_next hr, ← hr, Cursor.rest_skipWhitespace]
      exact ⟨_, List.reverse_cons, .last hn ht hl, r.trans (Cursor.reaches_next hr)⟩
    -- a comma: more parameters
    case h_2 =>
      obtain ⟨pos'', ts', hr⟩ := exists_cons_of_front hk (by simp)
      simp only [bind_eq_ok, next_eq_ok] at h
      obtain ⟨-, c₅, rfl, h⟩ := h
      obtain ⟨qs, rfl, hq, r'⟩ := ih h
      rw [Cursor.rest_next hr] at hq
      rw [Cursor.rest_skipWhitespace] at hr
      refine ⟨⟨name, some (.named type)⟩ :: qs, by simp, .cons hn ht hr hq, ?_⟩
      exact (r.trans (Cursor.reaches_next (by rw [Cursor.rest_skipWhitespace, hr]))).trans r'

lemma exists_param {name type : Text} {pos pos' : Int} {ts ts' : List Token}
    (hn : skip c.rest = ⟨.identifier name, pos⟩ :: ts)
    (ht : skipBlank ts = ⟨.constant type, pos'⟩ :: ts') (hne : ts' ≠ []) :
    ∃ c', param c.skipWhitespace = .ok ⟨name, some (.named type)⟩ c' ∧ c'.rest = ts' := by
  rw [← Cursor.rest_skipWhitespace] at hn
  have hr : c.skipWhitespace.next.skipSpace.rest = ⟨.constant type, pos'⟩ :: ts' := by
    rw [Cursor.rest_skipSpace, Cursor.rest_next hn, ht]
  refine ⟨c.skipWhitespace.next.skipSpace.next, param_eq_ok.2 ?_, Cursor.rest_next hr⟩
  rw [Cursor.rest_next hr]
  exact ⟨name, type, pos, pos', ts, hn, ht, hne, rfl, rfl⟩

lemma exists_params (n : Nat) (done : List Param) {ps : List Param} {ts rest : List Token}
    (h : ReadsParams ts ps rest) (hc : c.rest = ts) (hn : ts.length ≤ n) :
    ∃ c', params n done c = .ok (done.reverse ++ ps) c' ∧ c'.rest = rest := by
  induction h generalizing n done c with
  | @last ts ts₁ ts₂ ts₃ name type pos pos' pos'' hi ht hr =>
    obtain ⟨n, rfl⟩ : ∃ m, n = m + 1 := ⟨n - 1, by have := length_of_skip hi; omega⟩
    obtain ⟨c₁, hp, rfl⟩ := exists_param (hc ▸ hi) ht (ne_nil_of_skip hr)
    rw [← Cursor.rest_skipWhitespace] at hr
    refine ⟨c₁.skipWhitespace.next, ?_, Cursor.rest_next hr⟩
    simp only [params, bind_eq_ok, skipWhitespace_eq_ok, token_eq_ok]
    refine ⟨(), _, rfl, _, c₁, hp, (), _, rfl, _, _, ⟨Cursor.token_of_rest hr, rfl⟩, ?_⟩
    simp only [bind_eq_ok, next_eq_ok, pure_eq_ok]
    exact ⟨(), _, rfl, by simp, rfl⟩
  | @cons ts ts₁ ts₂ ts₃ rest ps name type pos pos' pos'' hi ht hr _ ih =>
    have h₁ := length_of_skip hi
    have h₂ := length_of_skipBlank ht
    have h₃ := length_of_skip hr
    obtain ⟨n, rfl⟩ : ∃ m, n = m + 1 := ⟨n - 1, by omega⟩
    obtain ⟨c₁, hp, rfl⟩ := exists_param (hc ▸ hi) ht (ne_nil_of_skip hr)
    rw [← Cursor.rest_skipWhitespace] at hr
    obtain ⟨c', hq, rfl⟩ := ih n (⟨name, some (.named type)⟩ :: done) (Cursor.rest_next hr)
      (by omega)
    refine ⟨c', ?_, rfl⟩
    simp only [params, bind_eq_ok, skipWhitespace_eq_ok, token_eq_ok]
    refine ⟨(), _, rfl, _, c₁, hp, (), _, rfl, _, _, ⟨Cursor.token_of_rest hr, rfl⟩, ?_⟩
    simp only [bind_eq_ok, next_eq_ok]
    refine ⟨(), _, rfl, ?_⟩
    rwa [List.reverse_cons, List.append_assoc] at hq

/-! ### Result types -/

lemma resultTypeName_eq_ok {r : Option BaseType} :
    resultTypeName c = .ok r c' ↔
      ∃ type pos ts, c.rest = ⟨.constant type, pos⟩ :: ts ∧ r = some (.named type) ∧
        c' = c.next := by
  simp only [resultTypeName, bind_eq_ok, token_eq_ok]
  constructor
  · rintro ⟨t, c₁, ⟨rfl, rfl⟩, h⟩
    generalize hk : c.token.kind = kind at h
    split at h
    case h_2 => exact (fail_eq_ok.1 h).elim
    case h_1 type =>
      obtain ⟨pos, ts, hr⟩ := exists_cons_of_front hk (by simp)
      simp only [bind_eq_ok, next_eq_ok, pure_eq_ok] at h
      obtain ⟨-, c₁, rfl, rfl, rfl⟩ := h
      exact ⟨type, pos, ts, hr, rfl, rfl⟩
  · rintro ⟨type, pos, ts, hr, rfl, rfl⟩
    refine ⟨_, c, ⟨Cursor.token_of_rest hr, rfl⟩, ?_⟩
    simp only [bind_eq_ok, next_eq_ok, pure_eq_ok]
    exact ⟨(), _, rfl, trivial, rfl⟩

lemma reads_of_resultType {r : Option BaseType} (h : resultType c = .ok r c') :
    ReadsResult c.rest r c'.rest ∧ c.Reaches c' := by
  simp only [resultType, bind_eq_ok, current_eq_ok] at h
  obtain ⟨⟨kind, pos⟩, c₁, ⟨⟨ts, hr⟩, rfl⟩, h⟩ := h
  have r₁ := Cursor.reaches_next hr
  have hn := Cursor.rest_next hr
  cases kind with
  | newline =>
    simp only [bind_eq_ok, next_eq_ok, pure_eq_ok] at h
    obtain ⟨-, c₁, rfl, rfl, rfl⟩ := h
    have hl : skipBlank c.rest = ⟨.newline, pos⟩ :: c.next.rest := by
      rw [hr, hn]
      rfl
    exact ⟨.none hl, r₁⟩
  | arrow =>
    simp only [bind_eq_ok, next_eq_ok, resultTypeName_eq_ok] at h
    obtain ⟨-, c₁, rfl, type, pos', ts', hr', rfl, rfl⟩ := h
    rw [Cursor.rest_next hr', hr, ← hn, hr']
    exact ⟨.tight, r₁.trans (Cursor.reaches_next hr')⟩
  -- a blank, and an arrow or the line end behind it
  | space =>
    simp only [bind_eq_ok, next_eq_ok, token_eq_ok] at h
    obtain ⟨-, c₁, rfl, t, c₂, ⟨rfl, rfl⟩, h⟩ := h
    generalize hk : c.next.token.kind = kind at h
    split at h
    case h_1 =>
      obtain ⟨pos', ts', hr'⟩ := exists_cons_of_front hk (by simp)
      simp only [bind_eq_ok, next_eq_ok, skipSpace_eq_ok, resultTypeName_eq_ok] at h
      obtain ⟨-, c₁, rfl, -, c₂, rfl, type, pos'', ts'', hr'', rfl, rfl⟩ := h
      have r₂ := (Cursor.reaches_next hr').trans (Cursor.reaches_skipSpace _)
      refine ⟨?_, (r₁.trans r₂).trans (Cursor.reaches_next hr'')⟩
      rw [Cursor.rest_next hr'', hr, ← hn, hr']
      rw [Cursor.rest_skipSpace, Cursor.rest_next hr'] at hr''
      exact .spaced hr''
    case h_2 =>
      obtain ⟨pos', ts', hr'⟩ := exists_cons_of_front hk (by simp)
      simp only [bind_eq_ok, next_eq_ok, pure_eq_ok] at h
      obtain ⟨-, c₁, rfl, rfl, rfl⟩ := h
      have hl : skipBlank c.rest = ⟨.newline, pos'⟩ :: c.next.next.rest := by
        rw [hr, Cursor.rest_next hr', ← hr', hn]
        rfl
      exact ⟨.none hl, r₁.trans (Cursor.reaches_next hr')⟩
    case h_3 => exact (fail_eq_ok.1 h).elim
  | _ => exact (fail_eq_ok.1 h).elim

lemma skipBlank_eq_cons {ts u : List Token} {t : Token} (h : skipBlank ts = t :: u) :
    ts = t :: u ∨ ∃ pos, ts = ⟨.space, pos⟩ :: t :: u := by
  unfold skipBlank at h
  split at h
  case h_1 pos ts => exact .inr ⟨pos, by rw [h]⟩
  case h_2 => exact .inl h

lemma exists_resultType {r : Option BaseType} {rest : List Token} (h : ReadsResult c.rest r rest) :
    ∃ c', resultType c = .ok r c' ∧ c'.rest = rest := by
  generalize hc : c.rest = ts at h
  cases h with
  | @none _ _ pos hn =>
    rcases skipBlank_eq_cons hn with rfl | ⟨pos', rfl⟩
    · refine ⟨c.next, ?_, Cursor.rest_next hc⟩
      simp only [resultType, bind_eq_ok, current_eq_ok]
      refine ⟨_, c, ⟨⟨_, hc⟩, rfl⟩, ?_⟩
      simp only [bind_eq_ok, next_eq_ok, pure_eq_ok]
      exact ⟨(), _, rfl, trivial, rfl⟩
    · have hr := Cursor.rest_next hc
      refine ⟨c.next.next, ?_, Cursor.rest_next hr⟩
      simp only [resultType, bind_eq_ok, current_eq_ok]
      refine ⟨_, c, ⟨⟨_, hc⟩, rfl⟩, ?_⟩
      simp only [bind_eq_ok, next_eq_ok, token_eq_ok]
      refine ⟨(), _, rfl, _, _, ⟨Cursor.token_of_rest hr, rfl⟩, ?_⟩
      simp only [bind_eq_ok, next_eq_ok, pure_eq_ok]
      exact ⟨(), _, rfl, trivial, rfl⟩
  | tight =>
    have hr := Cursor.rest_next hc
    refine ⟨c.next.next, ?_, Cursor.rest_next hr⟩
    simp only [resultType, bind_eq_ok, current_eq_ok]
    refine ⟨_, c, ⟨⟨_, hc⟩, rfl⟩, ?_⟩
    simp only [bind_eq_ok, next_eq_ok, resultTypeName_eq_ok]
    exact ⟨(), _, rfl, _, _, _, hr, rfl, rfl⟩
  | spaced ht =>
    have hr := Cursor.rest_next hc
    have hr' := Cursor.rest_next hr
    rw [← hr', ← Cursor.rest_skipSpace] at ht
    refine ⟨c.next.next.skipSpace.next, ?_, Cursor.rest_next ht⟩
    simp only [resultType, bind_eq_ok, current_eq_ok]
    refine ⟨_, c, ⟨⟨_, hc⟩, rfl⟩, ?_⟩
    simp only [bind_eq_ok, next_eq_ok, token_eq_ok]
    refine ⟨(), _, rfl, _, _, ⟨Cursor.token_of_rest hr, rfl⟩, ?_⟩
    simp only [bind_eq_ok, next_eq_ok, skipSpace_eq_ok, resultTypeName_eq_ok]
    exact ⟨(), _, rfl, (), _, rfl, _, _, _, ht, rfl, rfl⟩

/-! ### Signatures -/

lemma readsParams_skip {ts rest : List Token} {ps : List Param} :
    ReadsParams (skip ts) ps rest ↔ ReadsParams ts ps rest := by
  constructor
  · intro h
    cases h with
    | last hn ht hr => exact .last (skip_skip ts ▸ hn) ht hr
    | cons hn ht hc hp => exact .cons (skip_skip ts ▸ hn) ht hc hp
  · intro h
    cases h with
    | last hn ht hr => exact .last ((skip_skip ts).trans hn) ht hr
    | cons hn ht hc hp => exact .cons ((skip_skip ts).trans hn) ht hc hp

lemma reads_of_paramList {ps : List Param} (h : paramList c = .ok ps c') :
    ((∃ pos, ps = [] ∧ skip c.rest = ⟨.rightParen, pos⟩ :: c'.rest) ∨
      ReadsParams c.rest ps c'.rest) ∧ c.Reaches c' := by
  simp only [paramList, bind_eq_ok, skipWhitespace_eq_ok, token_eq_ok] at h
  obtain ⟨-, c₁, rfl, t, c₂, ⟨rfl, rfl⟩, h⟩ := h
  generalize hk : c.skipWhitespace.token.kind = kind at h
  split at h
  case h_1 =>
    obtain ⟨pos, ts, hr⟩ := exists_cons_of_front hk (by simp)
    simp only [bind_eq_ok, next_eq_ok, pure_eq_ok] at h
    obtain ⟨-, c₁, rfl, rfl, rfl⟩ := h
    refine ⟨.inl ⟨pos, rfl, ?_⟩, c.reaches_skipWhitespace.trans (Cursor.reaches_next hr)⟩
    rw [Cursor.rest_next hr, ← hr, Cursor.rest_skipWhitespace]
  case h_2 =>
    obtain ⟨qs, rfl, hq, r⟩ := reads_of_params h
    rw [Cursor.rest_skipWhitespace, readsParams_skip] at hq
    exact ⟨.inr hq, c.reaches_skipWhitespace.trans r⟩

lemma exists_paramList_empty {pos : Int} {rest : List Token}
    (h : skip c.rest = ⟨.rightParen, pos⟩ :: rest) :
    ∃ c', paramList c = .ok [] c' ∧ c'.rest = rest := by
  rw [← Cursor.rest_skipWhitespace] at h
  refine ⟨c.skipWhitespace.next, ?_, Cursor.rest_next h⟩
  simp only [paramList, bind_eq_ok, skipWhitespace_eq_ok, token_eq_ok]
  refine ⟨(), _, rfl, _, _, ⟨Cursor.token_of_rest h, rfl⟩, ?_⟩
  simp only [bind_eq_ok, next_eq_ok, pure_eq_ok]
  exact ⟨(), _, rfl, trivial, rfl⟩

lemma exists_paramList {ps : List Param} {rest : List Token} (h : ReadsParams c.rest ps rest) :
    ∃ c', paramList c = .ok ps c' ∧ c'.rest = rest := by
  obtain ⟨name, pos, ts, hn⟩ :
      ∃ name pos ts, c.skipWhitespace.rest = ⟨.identifier name, pos⟩ :: ts := by
    rw [Cursor.rest_skipWhitespace]
    cases h with
    | last hn => exact ⟨_, _, _, hn⟩
    | cons hn => exact ⟨_, _, _, hn⟩
  rw [← readsParams_skip, ← Cursor.rest_skipWhitespace] at h
  obtain ⟨c', hp, hr⟩ := exists_params (6 * c.skipWhitespace.rest.length + 6) [] h rfl
    (by omega)
  refine ⟨c', ?_, hr⟩
  simp only [paramList, bind_eq_ok, skipWhitespace_eq_ok, token_eq_ok]
  exact ⟨(), _, rfl, _, _, ⟨Cursor.token_of_rest hn, rfl⟩, hp⟩

lemma reads_of_prototype {p : Prototype} (h : prototype c = .ok p c') :
    ReadsPrototype c.rest p c'.rest ∧ c.Reaches c' := by
  simp only [prototype, routine_eq, bind_eq_ok, current_eq_ok] at h
  obtain ⟨⟨kind, pos⟩, c₁, ⟨⟨ts, hr⟩, rfl⟩, h⟩ := h
  dsimp only at h
  split at h
  case h_2 => exact (fail_eq_ok.1 h).elim
  simp only [bind_eq_ok, next_eq_ok, token_eq_ok] at h
  obtain ⟨-, c₁, rfl, t, c₂, ⟨rfl, rfl⟩, h⟩ := h
  generalize hk : c.next.token.kind = kind at h
  split at h
  case h_2 => exact (fail_eq_ok.1 h).elim
  case h_1 name =>
  obtain ⟨pos', ts', hr'⟩ := exists_cons_of_front hk (by simp)
  simp only [bind_eq_ok, advance_eq_ok, skipSpace_eq_ok, token_eq_ok] at h
  obtain ⟨-, c₁, ⟨-, rfl⟩, -, c₂, rfl, t, c₃, ⟨rfl, rfl⟩, h⟩ := h
  have r := ((Cursor.reaches_next hr).trans (Cursor.reaches_next hr')).trans
    (Cursor.reaches_skipSpace _)
  have hts : c.rest = ⟨.space, pos⟩ :: ⟨.identifier name, pos'⟩ :: ts' := by
    rw [hr, ← Cursor.rest_next hr, hr']
  have hs : c.next.next.skipSpace.rest = skipBlank ts' := by
    rw [Cursor.rest_skipSpace, Cursor.rest_next hr']
  rw [hts]
  generalize hk' : c.next.next.skipSpace.token.kind = kind at h
  split at h
  -- a list of parameters, which may be empty
  case h_1 =>
    obtain ⟨posl, u, hl⟩ := exists_cons_of_front hk' (by simp)
    simp only [bind_eq_ok, next_eq_ok, pure_eq_ok] at h
    obtain ⟨-, c₁, rfl, ps, c₂, hp, res, c₃, ht, rfl, rfl⟩ := h
    obtain ⟨hps, r₁⟩ := reads_of_paramList hp
    obtain ⟨hres, r₂⟩ := reads_of_resultType ht
    rw [Cursor.rest_next hl] at hps
    refine ⟨?_, ((r.trans (Cursor.reaches_next hl)).trans r₁).trans r₂⟩
    rcases hps with ⟨posr, rfl, hps⟩ | hps
    · exact .empty (hs.symm.trans hl) hps hres
    · exact .full (hs.symm.trans hl) hps hres
  -- the line ends behind the name
  case h_2 =>
    obtain ⟨posl, u, hl⟩ := exists_cons_of_front hk' (by simp)
    simp only [bind_eq_ok, next_eq_ok, pure_eq_ok] at h
    obtain ⟨-, c₁, rfl, rfl, rfl⟩ := h
    rw [Cursor.rest_next hl]
    exact ⟨.bare (hs.symm.trans hl), r.trans (Cursor.reaches_next hl)⟩
  case h_3 => exact (fail_eq_ok.1 h).elim

lemma rest_of_name {name : Text} {pos pos' : Int} {ts u : List Token} {t : Token}
    (hc : c.rest = ⟨.space, pos⟩ :: ⟨.identifier name, pos'⟩ :: ts) (hu : skipBlank ts = t :: u) :
    c.next.next.skipSpace.rest = t :: u := by
  rw [Cursor.rest_skipSpace, Cursor.rest_next (Cursor.rest_next hc), hu]

/-- A name behind `def`, in front of a token that the rest of the signature depends on. -/
lemma prototype_of_name {p : Prototype} {name : Text} {pos pos' : Int} {ts u : List Token}
    {t : Token} (hc : c.rest = ⟨.space, pos⟩ :: ⟨.identifier name, pos'⟩ :: ts)
    (hu : skipBlank ts = t :: u)
    (h : (match t.kind with
      | .leftParen => do
        next
        let ps ← paramList
        let r ← resultType
        return { name := name, params := ps, result := r }
      | .newline => do
        next
        return { name := name }
      | _ => fail .afterDefName : Parser Prototype) c.next.next.skipSpace = .ok p c') :
    prototype c = .ok p c' := by
  have hr := Cursor.rest_next hc
  have hs := rest_of_name hc hu
  simp only [prototype, routine_eq, bind_eq_ok, current_eq_ok]
  refine ⟨_, c, ⟨⟨_, hc⟩, rfl⟩, ?_⟩
  simp only [bind_eq_ok, next_eq_ok, token_eq_ok]
  refine ⟨(), _, rfl, _, _, ⟨Cursor.token_of_rest hr, rfl⟩, ?_⟩
  simp only [bind_eq_ok, advance_eq_ok, skipSpace_eq_ok, token_eq_ok]
  refine ⟨(), _, ⟨?_, rfl⟩, (), _, rfl, _, _, ⟨Cursor.token_of_rest hs, rfl⟩, h⟩
  rw [Cursor.rest_next hr]
  exact ne_nil_of_skipBlank hu

lemma exists_prototype {p : Prototype} {rest : List Token} (h : ReadsPrototype c.rest p rest) :
    ∃ c', prototype c = .ok p c' ∧ c'.rest = rest := by
  generalize hc : c.rest = ts at h
  cases h with
  | bare hn =>
    have hs := rest_of_name hc hn
    refine ⟨c.next.next.skipSpace.next, prototype_of_name hc hn ?_, Cursor.rest_next hs⟩
    simp only [bind_eq_ok, next_eq_ok, pure_eq_ok]
    exact ⟨(), _, rfl, trivial, rfl⟩
  | empty hl hr ht =>
    have hs := rest_of_name hc hl
    obtain ⟨c₁, hp, rfl⟩ := exists_paramList_empty (c := c.next.next.skipSpace.next)
      (by rw [Cursor.rest_next hs, hr])
    obtain ⟨c₂, hq, rfl⟩ := exists_resultType ht
    refine ⟨c₂, prototype_of_name hc hl ?_, rfl⟩
    simp only [bind_eq_ok, next_eq_ok, pure_eq_ok]
    exact ⟨(), _, rfl, _, _, hp, _, _, hq, rfl, rfl⟩
  | full hl hp ht =>
    have hs := rest_of_name hc hl
    rw [← Cursor.rest_next hs] at hp
    obtain ⟨c₁, hps, rfl⟩ := exists_paramList hp
    obtain ⟨c₂, hq, rfl⟩ := exists_resultType ht
    refine ⟨c₂, prototype_of_name hc hl ?_, rfl⟩
    simp only [bind_eq_ok, next_eq_ok, pure_eq_ok]
    exact ⟨(), _, rfl, _, _, hps, _, _, hq, rfl, rfl⟩

/-- The parser of signatures reads exactly what the grammar says. -/
theorem reader_prototype : Reader prototype ReadsPrototype :=
  ⟨reads_of_prototype, exists_prototype⟩

end Grammar

end Frontend
