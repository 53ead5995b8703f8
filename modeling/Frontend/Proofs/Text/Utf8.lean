import Frontend.Text.Utf8
import Mathlib

/-!
# UTF-8 sequences in both directions

`decode?` reads back what `encodeScalar` writes, and it accepts nothing else: the sequence it
takes off a text is the one that `encodeScalar` gives for the scalar value it found. Cutting a
text into units therefore loses no byte.
-/

namespace Frontend.Text

/-! ### Bytes as numbers -/

lemma toNat_toUInt8 {n : Nat} (h : n < 256) : n.toUInt8.toNat = n := by
  simp [Nat.mod_eq_of_lt h]

lemma toUInt8_of_toNat_eq {b : UInt8} {n : Nat} (h : b.toNat = n) : n.toUInt8 = b := by
  subst h
  simp

lemma isTail_iff (b : UInt8) : isTail b = true ↔ 0x80 ≤ b.toNat ∧ b.toNat ≤ 0xBF := by
  simp [isTail, UInt8.le_iff_toNat_le]

lemma isScalar_iff (c : Nat) : isScalar c = true ↔ c < 0xD800 ∨ 0xE000 ≤ c ∧ c ≤ 0x10FFFF := by
  simp [isScalar]

/-! ### Sequences by their length -/

section Sequences

variable {a b c d : UInt8} {t : Text}

lemma decode?_one (ha : a.toNat < 0x80) : decode? (a :: t) = some (a.toNat, t) := by
  have h : a < 0x80 := UInt8.lt_iff_toNat_lt.2 ha
  simp only [decode?, if_pos h]

lemma decode?_two (ha : 0xC2 ≤ a.toNat) (ha' : a.toNat < 0xE0) (hb : isTail b = true) :
    decode? (a :: b :: t) = some ((a.toNat - 0xC0) * 64 + tailBits b, t) := by
  have h₁ : ¬a < 0x80 := fun h => by have := UInt8.lt_iff_toNat_lt.1 h; simp at this; omega
  have h₂ : ¬a < 0xC2 := fun h => by have := UInt8.lt_iff_toNat_lt.1 h; simp at this; omega
  have h₃ : a < 0xE0 := UInt8.lt_iff_toNat_lt.2 ha'
  simp only [decode?, if_neg h₁, if_neg h₂, if_pos h₃, scalarOf2, if_pos hb, Option.map_some]

lemma decode?_three (ha : 0xE0 ≤ a.toNat) (ha' : a.toNat < 0xF0) :
    decode? (a :: b :: c :: t) = (scalarOf3 a b c).map (·, t) := by
  have h₁ : ¬a < 0x80 := fun h => by have := UInt8.lt_iff_toNat_lt.1 h; simp at this; omega
  have h₂ : ¬a < 0xC2 := fun h => by have := UInt8.lt_iff_toNat_lt.1 h; simp at this; omega
  have h₃ : ¬a < 0xE0 := fun h => by have := UInt8.lt_iff_toNat_lt.1 h; simp at this; omega
  have h₄ : a < 0xF0 := UInt8.lt_iff_toNat_lt.2 ha'
  simp only [decode?, if_neg h₁, if_neg h₂, if_neg h₃, if_pos h₄]

lemma decode?_four (ha : 0xF0 ≤ a.toNat) (ha' : a.toNat < 0xF5) :
    decode? (a :: b :: c :: d :: t) = (scalarOf4 a b c d).map (·, t) := by
  have h₁ : ¬a < 0x80 := fun h => by have := UInt8.lt_iff_toNat_lt.1 h; simp at this; omega
  have h₂ : ¬a < 0xC2 := fun h => by have := UInt8.lt_iff_toNat_lt.1 h; simp at this; omega
  have h₃ : ¬a < 0xE0 := fun h => by have := UInt8.lt_iff_toNat_lt.1 h; simp at this; omega
  have h₄ : ¬a < 0xF0 := fun h => by have := UInt8.lt_iff_toNat_lt.1 h; simp at this; omega
  have h₅ : a < 0xF5 := UInt8.lt_iff_toNat_lt.2 ha'
  simp only [decode?, if_neg h₁, if_neg h₂, if_neg h₃, if_neg h₄, if_pos h₅]

end Sequences

/-! ### The bytes that are written -/

section Bytes

variable {c : Nat}

lemma encodeScalar_one (h : c < 0x80) : ∃ a : UInt8, encodeScalar c = [a] ∧ a.toNat = c := by
  refine ⟨c.toUInt8, ?_, toNat_toUInt8 (by omega)⟩
  simp only [encodeScalar, if_pos h]

lemma encodeScalar_two (h : 0x80 ≤ c) (h' : c < 0x800) : ∃ a b : UInt8,
    encodeScalar c = [a, b] ∧ a.toNat = 0xC0 + c / 64 ∧ b.toNat = 0x80 + c % 64 := by
  refine ⟨(0xC0 + c / 64).toUInt8, (0x80 + c % 64).toUInt8, ?_, toNat_toUInt8 (by omega),
    toNat_toUInt8 (by omega)⟩
  simp only [encodeScalar, if_neg (Nat.not_lt.2 h), if_pos h']

lemma encodeScalar_three (h : 0x800 ≤ c) (h' : c < 0x10000) : ∃ a b d : UInt8,
    encodeScalar c = [a, b, d] ∧ a.toNat = 0xE0 + c / 4096 ∧ b.toNat = 0x80 + c / 64 % 64 ∧
      d.toNat = 0x80 + c % 64 := by
  refine ⟨(0xE0 + c / 4096).toUInt8, (0x80 + c / 64 % 64).toUInt8, (0x80 + c % 64).toUInt8, ?_,
    toNat_toUInt8 (by omega), toNat_toUInt8 (by omega), toNat_toUInt8 (by omega)⟩
  have h₁ : ¬c < 0x80 := by omega
  simp only [encodeScalar, if_neg h₁, if_neg (Nat.not_lt.2 h), if_pos h']

lemma encodeScalar_four (h : 0x10000 ≤ c) (h' : c ≤ 0x10FFFF) : ∃ a b d e : UInt8,
    encodeScalar c = [a, b, d, e] ∧ a.toNat = 0xF0 + c / 262144 ∧
      b.toNat = 0x80 + c / 4096 % 64 ∧ d.toNat = 0x80 + c / 64 % 64 ∧
      e.toNat = 0x80 + c % 64 := by
  refine ⟨(0xF0 + c / 262144).toUInt8, (0x80 + c / 4096 % 64).toUInt8,
    (0x80 + c / 64 % 64).toUInt8, (0x80 + c % 64).toUInt8, ?_, toNat_toUInt8 (by omega),
    toNat_toUInt8 (by omega), toNat_toUInt8 (by omega), toNat_toUInt8 (by omega)⟩
  have h₁ : ¬c < 0x80 := by omega
  have h₂ : ¬c < 0x800 := by omega
  simp only [encodeScalar, if_neg h₁, if_neg h₂, if_neg (Nat.not_lt.2 h)]

end Bytes

/-! ### Reading what was written -/

lemma decode?_encodeScalar_append {c : Nat} (hc : isScalar c = true) (t : Text) :
    decode? (encodeScalar c ++ t) = some (c, t) := by
  have hc' := (isScalar_iff c).1 hc
  -- one case for each length of a sequence, as the writer has them
  by_cases h₁ : c < 0x80
  · obtain ⟨a, he, ha⟩ := encodeScalar_one h₁
    rw [he, List.singleton_append, decode?_one (by omega), ha]
  by_cases h₂ : c < 0x800
  · obtain ⟨a, b, he, ha, hb⟩ := encodeScalar_two (by omega) h₂
    have tb : isTail b = true := (isTail_iff b).2 (by omega)
    have code : (a.toNat - 0xC0) * 64 + tailBits b = c := by
      unfold tailBits
      omega
    simp only [he, List.cons_append, List.nil_append]
    rw [decode?_two (by omega) (by omega) tb, code]
  by_cases h₃ : c < 0x10000
  · obtain ⟨a, b, d, he, ha, hb, hd⟩ := encodeScalar_three (by omega) h₃
    have tb : isTail b = true := (isTail_iff b).2 (by omega)
    have td : isTail d = true := (isTail_iff d).2 (by omega)
    have code : (a.toNat - 0xE0) * 4096 + tailBits b * 64 + tailBits d = c := by
      unfold tailBits
      omega
    have large : 0x800 ≤ c := by omega
    have hs : scalarOf3 a b d = some c := by
      simp only [scalarOf3, code, tb, td, hc, large, decide_true, Bool.and_self, if_true]
    simp only [he, List.cons_append, List.nil_append]
    rw [decode?_three (by omega) (by omega), hs, Option.map_some]
  · obtain ⟨a, b, d, e, he, ha, hb, hd, hf⟩ :=
      encodeScalar_four (c := c) (by omega) (by omega)
    have tb : isTail b = true := (isTail_iff b).2 (by omega)
    have td : isTail d = true := (isTail_iff d).2 (by omega)
    have te : isTail e = true := (isTail_iff e).2 (by omega)
    have code :
        (a.toNat - 0xF0) * 262144 + tailBits b * 4096 + tailBits d * 64 + tailBits e = c := by
      unfold tailBits
      omega
    have large : 0x10000 ≤ c := by omega
    have hs : scalarOf4 a b d e = some c := by
      simp only [scalarOf4, code, tb, td, te, hc, large, decide_true, Bool.and_self, if_true]
    simp only [he, List.cons_append, List.nil_append]
    rw [decode?_four (by omega) (by omega), hs, Option.map_some]

/-! ### Writing what was read -/

section Inversion

variable {a b c d : UInt8} {n : Nat}

lemma scalarOf2_eq_some (ha : 0xC2 ≤ a.toNat) (ha' : a.toNat < 0xE0)
    (h : scalarOf2 a b = some n) : isScalar n = true ∧ encodeScalar n = [a, b] := by
  simp only [scalarOf2, Option.ite_none_right_eq_some, Option.some.injEq, isTail_iff] at h
  obtain ⟨hb, hn⟩ := h
  unfold tailBits at hn
  obtain ⟨a', b', he, ha'', hb''⟩ := encodeScalar_two (c := n) (by omega) (by omega)
  have haa : a' = a := UInt8.toNat_inj.1 (by omega)
  have hbb : b' = b := UInt8.toNat_inj.1 (by omega)
  refine ⟨(isScalar_iff n).2 (by omega), ?_⟩
  rw [he, haa, hbb]

lemma scalarOf3_eq_some (ha : 0xE0 ≤ a.toNat) (ha' : a.toNat < 0xF0)
    (h : scalarOf3 a b c = some n) : isScalar n = true ∧ encodeScalar n = [a, b, c] := by
  simp only [scalarOf3, Option.ite_none_right_eq_some, Option.some.injEq, Bool.and_eq_true,
    isTail_iff, decide_eq_true_eq] at h
  obtain ⟨⟨⟨⟨hb, hc⟩, large⟩, hs⟩, hn⟩ := h
  rw [hn] at large hs
  unfold tailBits at hn
  obtain ⟨a', b', c', he, ha'', hb'', hc''⟩ := encodeScalar_three (c := n) large (by omega)
  have haa : a' = a := UInt8.toNat_inj.1 (by omega)
  have hbb : b' = b := UInt8.toNat_inj.1 (by omega)
  have hcc : c' = c := UInt8.toNat_inj.1 (by omega)
  refine ⟨hs, ?_⟩
  rw [he, haa, hbb, hcc]

lemma scalarOf4_eq_some (ha : 0xF0 ≤ a.toNat) (h : scalarOf4 a b c d = some n) :
    isScalar n = true ∧ encodeScalar n = [a, b, c, d] := by
  simp only [scalarOf4, Option.ite_none_right_eq_some, Option.some.injEq, Bool.and_eq_true,
    isTail_iff, decide_eq_true_eq] at h
  obtain ⟨⟨⟨⟨⟨hb, hc⟩, hd⟩, large⟩, hs⟩, hn⟩ := h
  rw [hn] at large hs
  unfold tailBits at hn
  have bound := (isScalar_iff n).1 hs
  obtain ⟨a', b', c', d', he, ha'', hb'', hc'', hd''⟩ :=
    encodeScalar_four (c := n) large (by omega)
  have haa : a' = a := UInt8.toNat_inj.1 (by omega)
  have hbb : b' = b := UInt8.toNat_inj.1 (by omega)
  have hcc : c' = c := UInt8.toNat_inj.1 (by omega)
  have hdd : d' = d := UInt8.toNat_inj.1 (by omega)
  refine ⟨hs, ?_⟩
  rw [he, haa, hbb, hcc, hdd]

end Inversion

/-- The scalar value that is found is the one whose sequence stands at the start of the text. -/
lemma eq_encodeScalar_of_decode? {t rest : Text} {c : Nat} (h : decode? t = some (c, rest)) :
    isScalar c = true ∧ t = encodeScalar c ++ rest := by
  cases t with
  | nil => simp [decode?] at h
  | cons a t =>
    simp only [decode?, UInt8.lt_iff_toNat_lt] at h
    -- one case for each first byte, with as many bytes behind it as it announces
    split_ifs at h with h₁ h₂ h₃ h₄ h₅
    · obtain ⟨rfl, rfl⟩ := Prod.mk.inj (Option.some.inj h)
      have small : a.toNat < 0x80 := h₁
      obtain ⟨a', he, ha'⟩ := encodeScalar_one small
      refine ⟨(isScalar_iff _).2 (by omega), ?_⟩
      rw [he, UInt8.toNat_inj.1 ha', List.singleton_append]
    · obtain _ | ⟨b, t⟩ := t
      · cases h
      obtain ⟨n, hn, hc⟩ := Option.map_eq_some_iff.1 h
      obtain ⟨rfl, rfl⟩ := Prod.mk.inj hc
      obtain ⟨hs, he⟩ := scalarOf2_eq_some (Nat.not_lt.1 h₂) h₃ hn
      exact ⟨hs, by rw [he]; rfl⟩
    · obtain _ | ⟨b, _ | ⟨d, t⟩⟩ := t
      · cases h
      · cases h
      obtain ⟨n, hn, hc⟩ := Option.map_eq_some_iff.1 h
      obtain ⟨rfl, rfl⟩ := Prod.mk.inj hc
      obtain ⟨hs, he⟩ := scalarOf3_eq_some (Nat.not_lt.1 h₃) h₄ hn
      exact ⟨hs, by rw [he]; rfl⟩
    · obtain _ | ⟨b, _ | ⟨d, _ | ⟨e, t⟩⟩⟩ := t
      · cases h
      · cases h
      · cases h
      obtain ⟨n, hn, hc⟩ := Option.map_eq_some_iff.1 h
      obtain ⟨rfl, rfl⟩ := Prod.mk.inj hc
      obtain ⟨hs, he⟩ := scalarOf4_eq_some (Nat.not_lt.1 h₄) hn
      exact ⟨hs, by rw [he]; rfl⟩

/-- The first byte of a sequence is the character itself in ASCII, else it is no ASCII byte, and
neither are the bytes behind it. -/
lemma encodeScalar_cases {c : Nat} (hc : isScalar c = true) :
    (∃ a : UInt8, encodeScalar c = [a] ∧ a.toNat = c) ∨
      0x80 ≤ c ∧ ∀ b ∈ encodeScalar c, 0x80 ≤ b.toNat := by
  have hc' := (isScalar_iff c).1 hc
  by_cases h₁ : c < 0x80
  · exact .inl (encodeScalar_one h₁)
  refine .inr ⟨by omega, ?_⟩
  by_cases h₂ : c < 0x800
  · obtain ⟨a, b, he, ha, hb⟩ := encodeScalar_two (by omega) h₂
    simp only [he, List.mem_cons, List.not_mem_nil, or_false, forall_eq_or_imp, forall_eq]
    omega
  by_cases h₃ : c < 0x10000
  · obtain ⟨a, b, d, he, ha, hb, hd⟩ := encodeScalar_three (by omega) h₃
    simp only [he, List.mem_cons, List.not_mem_nil, or_false, forall_eq_or_imp, forall_eq]
    omega
  · obtain ⟨a, b, d, e, he, ha, hb, hd, hf⟩ :=
      encodeScalar_four (c := c) (by omega) (by omega)
    simp only [he, List.mem_cons, List.not_mem_nil, or_false, forall_eq_or_imp, forall_eq]
    omega

lemma encodeScalar_ne_nil (c : Nat) : encodeScalar c ≠ [] := by
  unfold encodeScalar
  split_ifs <;> simp

/-! ### Units -/

/-- The bytes that a unit was cut from. -/
def Piece.bytes : Piece → Text
  | .scalar c => encodeScalar c
  | .stray b  => [b]

/-- A unit that a text can be cut into. -/
def Piece.Valid : Piece → Prop
  | .scalar c => isScalar c = true
  | .stray _  => True

lemma flatMap_bytes_pieces (t : Text) : (pieces t).flatMap Piece.bytes = t := by
  fun_induction pieces t with
  | case1 => rfl
  | case2 b t c rest h ih =>
    rw [List.flatMap_cons, ih]
    exact (eq_encodeScalar_of_decode? h).2.symm
  | case3 b t h ih =>
    rw [List.flatMap_cons, ih]
    rfl

lemma valid_of_mem_pieces {t : Text} : ∀ p ∈ pieces t, p.Valid := by
  fun_induction pieces t with
  | case1 => simp
  | case2 b t c rest h ih =>
    rintro p (_ | ⟨_, hp⟩)
    · exact (eq_encodeScalar_of_decode? h).1
    · exact ih p hp
  | case3 b t h ih =>
    rintro p (_ | ⟨_, hp⟩)
    · trivial
    · exact ih p hp

end Frontend.Text
