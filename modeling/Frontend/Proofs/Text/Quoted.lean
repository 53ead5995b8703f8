import Frontend.Text.Quoted
import Frontend.Proofs.Text.Utf8

/-!
# Quoted text read back

What `body` writes between the quotes is read by `decode` as the text it was written from, for
every byte string and every choice of printable characters that leaves out the line feed.

A text that `decode` accepts has no quote and no line feed that is not part of an escape. This is
`Closed`, and it is what makes the first bare quote behind such a text the end of the literal.
-/

namespace Frontend.Text.Quoted

/-! ### Bodies of literals -/

/-- A byte with no meaning of its own between quotes. -/
def IsPlain (b : UInt8) : Prop := b ≠ 0x22 ∧ b ≠ 0x0A ∧ b ≠ 0x5C

/-- A text in which quotes stand only behind backslashes, and line feeds nowhere. -/
inductive Closed : Text → Prop
  | nil : Closed []
  | plain {b : UInt8} {t : Text} (hb : IsPlain b) (ht : Closed t) : Closed (b :: t)
  | escape {b : UInt8} {t : Text} (hb : b ≠ 0x0A) (ht : Closed t) : Closed (0x5C :: b :: t)

lemma Closed.append_plain {u t : Text} (hu : ∀ b ∈ u, IsPlain b) (ht : Closed t) :
    Closed (u ++ t) := by
  induction u with
  | nil => exact ht
  | cons b u ih =>
    exact .plain (hu b List.mem_cons_self) (ih fun b' hb' => hu b' (List.mem_cons_of_mem _ hb'))

lemma Closed.ne_newline {t : Text} (h : Closed t) : ∀ b ∈ t, b ≠ 0x0A := by
  induction h with
  | nil => simp
  | plain hb _ ih =>
    rintro b (_ | ⟨_, hb'⟩)
    · exact hb.2.1
    · exact ih b hb'
  | escape hb _ ih =>
    rintro b (_ | ⟨_, _ | ⟨_, hb'⟩⟩)
    · decide
    · exact hb
    · exact ih b hb'

lemma isPlain_of_high {b : UInt8} (h : 0x80 ≤ b.toNat) : IsPlain b := by
  refine ⟨?_, ?_, ?_⟩ <;> rintro rfl <;> simp at h

lemma isPlain_of_hexValue? {b : UInt8} {d : Nat} (h : hexValue? b = some d) : IsPlain b := by
  refine ⟨?_, ?_, ?_⟩ <;> rintro rfl <;> simp [hexValue?] at h

lemma isPlain_of_octalValue? {b : UInt8} {d : Nat} (h : octalValue? b = some d) :
    IsPlain b := by
  refine ⟨?_, ?_, ?_⟩ <;> rintro rfl <;> simp [octalValue?] at h

/-- A number is a run of digits. -/
lemma digits_of_number? {base : Nat} {digit? : UInt8 → Option Nat} {width m n : Nat}
    {t rest : Text} (h : number? base digit? width m t = some (n, rest)) :
    ∃ ds, t = ds ++ rest ∧ ∀ b ∈ ds, ∃ d, digit? b = some d := by
  induction width generalizing m t with
  | zero =>
    obtain ⟨-, rfl⟩ := Prod.mk.inj (Option.some.inj h)
    exact ⟨[], rfl, by simp⟩
  | succ width ih =>
    match t with
    | b :: t =>
      simp only [number?] at h
      split at h
      case h_1 d hd =>
        obtain ⟨ds, rfl, hds⟩ := ih h
        refine ⟨b :: ds, rfl, ?_⟩
        rintro b' (_ | ⟨_, hb'⟩)
        · exact ⟨d, hd⟩
        · exact hds b' hb'
      case h_2 => simp at h

lemma digits_of_byteEscape? {base : Nat} {digit? : UInt8 → Option Nat} {width : Nat}
    {t out rest : Text} (h : byteEscape? base digit? width t = some (out, rest)) :
    ∃ ds, t = ds ++ rest ∧ ∀ b ∈ ds, ∃ d, digit? b = some d := by
  simp only [byteEscape?] at h
  split at h
  case h_1 n rest' hn =>
    split_ifs at h
    obtain ⟨-, rfl⟩ := Prod.mk.inj (Option.some.inj h)
    exact digits_of_number? hn
  case h_2 => simp at h

lemma digits_of_scalarEscape? {width : Nat} {t out rest : Text}
    (h : scalarEscape? width t = some (out, rest)) :
    ∃ ds, t = ds ++ rest ∧ ∀ b ∈ ds, ∃ d, hexValue? b = some d := by
  simp only [scalarEscape?] at h
  split at h
  case h_1 n rest' hn =>
    split_ifs at h
    obtain ⟨-, rfl⟩ := Prod.mk.inj (Option.some.inj h)
    exact digits_of_number? hn
  case h_2 => simp at h

/-- An escape is a byte behind the backslash, perhaps with digits behind it. -/
lemma plain_of_escaped? {t out rest : Text} (h : escaped? t = some (out, rest)) :
    ∃ b ds, t = b :: ds ++ rest ∧ b ≠ 0x0A ∧ ∀ d ∈ ds, IsPlain d := by
  cases t with
  | nil => cases h
  | cons b t =>
    simp only [escaped?] at h
    split at h
    case h_10 =>
      obtain ⟨ds, rfl, hds⟩ := digits_of_byteEscape? h
      exact ⟨_, ds, rfl, by decide, fun d hd => isPlain_of_hexValue? (hds d hd).choose_spec⟩
    case h_11 =>
      obtain ⟨ds, rfl, hds⟩ := digits_of_scalarEscape? h
      exact ⟨_, ds, rfl, by decide, fun d hd => isPlain_of_hexValue? (hds d hd).choose_spec⟩
    case h_12 =>
      obtain ⟨ds, rfl, hds⟩ := digits_of_scalarEscape? h
      exact ⟨_, ds, rfl, by decide, fun d hd => isPlain_of_hexValue? (hds d hd).choose_spec⟩
    case h_13 =>
      -- the first octal digit is the byte behind the backslash itself
      have hw := length_of_byteEscape? h
      obtain ⟨ds, hds, hplain⟩ := digits_of_byteEscape? h
      cases ds with
      | nil =>
        simp only [List.nil_append] at hds
        rw [hds] at hw
        omega
      | cons d ds =>
        simp only [List.cons_append, List.cons.injEq] at hds
        obtain ⟨rfl, rfl⟩ := hds
        have plain : ∀ c ∈ b :: ds, IsPlain c := fun c hc =>
          isPlain_of_octalValue? (hplain c hc).choose_spec
        exact ⟨b, ds, rfl, (plain b List.mem_cons_self).2.1,
          fun c hc => plain c (List.mem_cons_of_mem _ hc)⟩
    all_goals
      obtain ⟨-, rfl⟩ := Prod.mk.inj (Option.some.inj h)
      exact ⟨_, [], rfl, by decide, by simp⟩

lemma closed_of_decode {t v : Text} (h : decode t = some v) : Closed t := by
  fun_induction decode t generalizing v with
  | case1 => exact .nil
  | case2 => simp at h
  | case3 t out rest he _ ih =>
    obtain ⟨w, hw, -⟩ := Option.map_eq_some_iff.1 h
    obtain ⟨b', ds, rfl, hb', hds⟩ := plain_of_escaped? he
    exact .escape hb' (.append_plain hds (ih hw))
  | case4 => simp at h
  | case5 b t hb hb' c rest hd ih =>
    obtain ⟨w, hw, -⟩ := Option.map_eq_some_iff.1 h
    obtain ⟨hs, he⟩ := eq_encodeScalar_of_decode? hd
    rw [he]
    refine .append_plain ?_ (ih hw)
    rcases encodeScalar_cases hs with ⟨a, ha, -⟩ | ⟨-, high⟩
    · rw [ha] at he ⊢
      obtain ⟨rfl, -⟩ := List.cons.inj he
      simp only [not_or] at hb
      simpa [IsPlain] using ⟨hb.1, hb.2, hb'⟩
    · exact fun b' hb' => isPlain_of_high (high b' hb')
  | case6 b t hb hb' hd ih =>
    obtain ⟨w, hw, -⟩ := Option.map_eq_some_iff.1 h
    simp only [not_or] at hb
    exact .plain ⟨hb.1, hb.2, hb'⟩ (ih hw)

/-! ### Reading what was written -/

lemma hexValue?_hexDigit : ∀ d < 16, hexValue? (hexDigit d) = some d := by decide

/-- The digits of a number are read into the value so far, and reading goes on behind them. -/
lemma number?_hex_append (width more m n : Nat) (h : n < 16 ^ width) (t : Text) :
    number? 16 hexValue? (width + more) m (hex width n ++ t) =
      number? 16 hexValue? more (m * 16 ^ width + n) t := by
  induction width generalizing more n t with
  | zero =>
    obtain rfl : n = 0 := by simpa using h
    simp [hex]
  | succ width ih =>
    have hq : n / 16 < 16 ^ width := Nat.div_lt_of_lt_mul (by rw [← Nat.pow_succ']; exact h)
    have hv : (m * 16 ^ width + n / 16) * 16 + n % 16 = m * 16 ^ (width + 1) + n := by
      have hm : m * 16 ^ (width + 1) = m * 16 ^ width * 16 := by rw [Nat.pow_succ, Nat.mul_assoc]
      omega
    rw [hex, List.append_assoc, Nat.add_assoc, Nat.add_comm 1 more, ih (more + 1) _ hq,
      List.singleton_append, number?, hexValue?_hexDigit _ (Nat.mod_lt n (by decide))]
    exact congrArg (number? 16 hexValue? more · t) hv

lemma number?_hex (width n : Nat) (h : n < 16 ^ width) (t : Text) :
    number? 16 hexValue? width 0 (hex width n ++ t) = some (n, t) := by
  have := number?_hex_append width 0 0 n h t
  simpa [number?] using this

lemma scalarEscape?_hex {width c : Nat} (h : c < 16 ^ width) (hc : isScalar c = true) (t : Text) :
    scalarEscape? width (hex width c ++ t) = some (encodeScalar c, t) := by
  simp only [scalarEscape?, number?_hex width c h t, hc, if_true]

lemma byteEscape?_hex {n : Nat} (h : n < 256) (t : Text) :
    byteEscape? 16 hexValue? 2 (hex 2 n ++ t) = some ([n.toUInt8], t) := by
  simp only [byteEscape?, number?_hex 2 n h t, h, if_true]

/-- An escape stands for its text wherever it is read. -/
lemma decode_escape {t out rest : Text} (h : escaped? t = some (out, rest)) :
    decode (0x5C :: t) = (decode rest).map (out ++ ·) := by
  rw [decode]
  simp only [show ¬((0x5C : UInt8) = 0x22 ∨ (0x5C : UInt8) = 0x0A) by decide, if_false, if_true]
  split
  case h_1 out' rest' h' =>
    obtain ⟨rfl, rfl⟩ := Prod.mk.inj (Option.some.inj (h'.symm.trans h))
    rfl
  case h_2 h' => simp [h] at h'

/-- A character with no meaning of its own stands for itself. -/
lemma decode_encodeScalar {c : Nat} (hc : isScalar c = true) (h₁ : c ≠ 0x22) (h₂ : c ≠ 0x0A)
    (h₃ : c ≠ 0x5C) (t : Text) :
    decode (encodeScalar c ++ t) = (decode t).map (encodeScalar c ++ ·) := by
  have hd := decode?_encodeScalar_append hc t
  obtain ⟨b, u, he⟩ := List.exists_cons_of_ne_nil (encodeScalar_ne_nil c)
  have hb : IsPlain b := by
    rcases encodeScalar_cases hc with ⟨a, ha, hac⟩ | ⟨-, high⟩
    · obtain ⟨rfl, -⟩ := List.cons.inj (he.symm.trans ha)
      refine ⟨?_, ?_, ?_⟩ <;> rintro rfl <;> simp_all
    · exact isPlain_of_high (high b (by simp [he]))
  have hq : ¬(b = 0x22 ∨ b = 0x0A) := by simp [hb.1, hb.2.1]
  rw [he, List.cons_append] at hd ⊢
  rw [decode]
  simp only [hq, if_false, hb.2.2]
  split
  case h_1 c' rest' h' =>
    obtain ⟨rfl, rfl⟩ := Prod.mk.inj (Option.some.inj (h'.symm.trans hd))
    rw [he]
  case h_2 h' => simp [hd] at h'

lemma escaped?_controlLetter {c : Nat} {letter : UInt8} (h : controlLetter? c = some letter)
    (t : Text) : escaped? (letter :: t) = some (encodeScalar c, t) := by
  unfold controlLetter? at h
  split at h
  case h_8 => simp at h
  all_goals
    obtain rfl := Option.some.inj h
    rfl

variable {printable : Nat → Bool}

lemma decode_escape_append (hp : printable 0x0A = false) {c : Nat} (hc : isScalar c = true)
    (t : Text) :
    decode (escape printable 0x22 c ++ t) = (decode t).map (encodeScalar c ++ ·) := by
  unfold escape
  split
  -- a quote or a backslash
  case isTrue h =>
    rcases h with rfl | rfl
    · exact decode_escape rfl
    · exact decode_escape rfl
  case isFalse h =>
    obtain ⟨h₁, h₃⟩ := not_or.1 h
    split
    -- a character that is printed as it is, which a line feed must not be
    case isTrue hpc =>
      refine decode_encodeScalar hc h₁ ?_ h₃ t
      rintro rfl
      simp [hp] at hpc
    case isFalse =>
      split
      -- an escape: a letter of its own, else its number in two, four or eight digits
      case h_1 letter hl => exact decode_escape (escaped?_controlLetter hl t)
      case h_2 =>
        have bound := (isScalar_iff c).1 hc
        split_ifs with hx hu
        · have small : c < 0x80 := by omega
          have he : encodeScalar c = [c.toUInt8] := by simp only [encodeScalar, if_pos small]
          rw [he]
          exact decode_escape (byteEscape?_hex (by omega) t)
        · exact decode_escape (scalarEscape?_hex (by simpa using hu) hc t)
        · exact decode_escape (scalarEscape?_hex (by norm_num; omega) hc t)

lemma decode_escapePiece_append (hp : printable 0x0A = false) {p : Piece} (h : p.Valid)
    (t : Text) :
    decode (escapePiece printable 0x22 p ++ t) = (decode t).map (p.bytes ++ ·) := by
  match p with
  | .scalar c => exact decode_escape_append hp h t
  | .stray b =>
    have he := byteEscape?_hex b.toNat_lt t
    rw [toUInt8_of_toNat_eq rfl] at he
    exact decode_escape he

/-- Every text is read back from its quoted form. -/
lemma decode_body (hp : printable 0x0A = false) (t : Text) :
    decode (body printable t) = some t := by
  have key : ∀ ps : List Piece, (∀ p ∈ ps, p.Valid) →
      decode (ps.flatMap (escapePiece printable 0x22)) = some (ps.flatMap Piece.bytes) := by
    intro ps hps
    induction ps with
    | nil => simp [decode]
    | cons p ps ih =>
      have hv := ih fun q hq => hps q (List.mem_cons_of_mem _ hq)
      rw [List.flatMap_cons, decode_escapePiece_append hp (hps p List.mem_cons_self), hv]
      rfl
  rw [body, key _ valid_of_mem_pieces, flatMap_bytes_pieces]

end Frontend.Text.Quoted

namespace Frontend.Text

/-! ### Control characters -/

/-- No ASCII control character counts as printable. -/
def ExcludesControls (printable : Nat → Bool) : Prop :=
  ∀ c, c < 0x20 ∨ c = 0x7F → printable c = false

lemma excludesControls_isPrintable : ExcludesControls isPrintable := by
  have key : ∀ c ∈ 0x7F :: List.range 0x20, isPrintable c = false := by
    simp only [isPrintable, ← Array.any_toList]
    decide +kernel
  rintro c (hc | rfl)
  · exact key c (List.mem_cons_of_mem _ (List.mem_range.2 hc))
  · exact key _ List.mem_cons_self

/-- Of the control characters it is the line feed that a quoted text must not show. -/
lemma ExcludesControls.newline {printable : Nat → Bool} (h : ExcludesControls printable) :
    printable 0x0A = false :=
  h 0x0A (.inl (by decide))

end Frontend.Text
