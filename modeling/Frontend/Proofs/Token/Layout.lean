import Frontend.Proofs.Token.Lexemes

/-!
# Writing tokens as text

`Lays p t ks` says that the text `t` is lexed as tokens of the kinds `ks` wherever it stands, as
long as the text behind it does not go on with a byte of the class `p`. Such texts can be put one
behind the other, so the tokens of a long text follow from those of its parts.
-/

namespace Frontend.Lexer

/-- A text is lexed as tokens of the given kinds in front of every text that does not go on with a
byte of a class. -/
def Lays (p : UInt8 → Bool) (t : Text) (ks : List Kind) : Prop :=
  ∀ (rest : Text) (pos : Int), Stops p rest → ∃ ts : List Token, ts.map Token.kind = ks ∧
    tokens (t ++ rest) pos = (tokens rest (pos + t.length)).map (ts ++ ·)

variable {p q : UInt8 → Bool} {t u : Text} {ks ls : List Kind}

/-! ### Putting texts together -/

lemma Lays.nil (p : UInt8 → Bool) : Lays p [] [] := by
  intro rest pos _
  refine ⟨[], rfl, ?_⟩
  simp only [List.nil_append, List.length_nil, Nat.cast_zero, add_zero]
  cases tokens rest pos <;> rfl

lemma Lays.mono (h : Lays p t ks) (hp : ∀ b, p b = true → q b = true) : Lays q t ks := by
  intro rest pos hr
  refine h rest pos fun b hb => ?_
  have := hr b hb
  by_contra hn
  simp [hp b (by simpa using hn)] at this

lemma Lays.trans (h : Lays p t ks) (h' : Lays q u ls)
    (hs : ∀ rest, Stops q rest → Stops p (u ++ rest)) : Lays q (t ++ u) (ks ++ ls) := by
  intro rest pos hr
  obtain ⟨ts, rfl, ht⟩ := h (u ++ rest) pos (hs rest hr)
  obtain ⟨us, rfl, hu⟩ := h' rest (pos + t.length) hr
  refine ⟨ts ++ us, List.map_append, ?_⟩
  have hpos : pos + t.length + u.length = pos + (t ++ u).length := by
    simp only [List.length_append]
    push_cast
    omega
  rw [List.append_assoc, ht, hu, hpos]
  cases tokens rest (pos + (t ++ u).length) with
  | error e => rfl
  | ok vs => exact congrArg Except.ok (List.append_assoc _ _ _).symm

lemma Lays.append (h : Lays p t ks) (h' : Lays q u ls) (hs : Stops p u) (hne : u ≠ []) :
    Lays q (t ++ u) (ks ++ ls) :=
  h.trans h' fun rest _ => stops_append hs hne rest

/-- A text that can stand in front of everything. -/
lemma Lays.append_free (h : Lays (fun _ => false) t ks) (h' : Lays q u ls) :
    Lays q (t ++ u) (ks ++ ls) :=
  h.trans h' fun _ _ _ _ => rfl

lemma Lays.exists_tokens (h : Lays p t ks) (pos : Int) :
    ∃ ts : List Token, ts.map Token.kind = ks ∧ tokens t pos = .ok ts := by
  obtain ⟨ts, hk, ht⟩ := h [] pos fun b hb => by simp at hb
  rw [List.append_nil, tokens] at ht
  exact ⟨ts, hk, ht.trans (congrArg Except.ok (List.append_nil ts))⟩

/-! ### Single tokens -/

lemma lays_of_spells {kind : Kind} (h : ∀ rest, Stops p rest → Spells t (some kind) rest) :
    Lays p t [kind] :=
  fun rest pos hr => ⟨[⟨kind, pos⟩], rfl, tokens_append_of_spells (h rest hr) pos⟩

lemma lays_newline : Lays (fun _ => false) [0x0A] [.newline] :=
  lays_of_spells fun rest _ => .newline rest

lemma lays_space (hne : t ≠ []) (ht : ∀ b ∈ t, isBlank b = true) : Lays isBlank t [.space] :=
  lays_of_spells fun _ hr => .space hne ht hr

lemma lays_keyword {kind : Kind} (ht : (t, kind) ∈ Kind.keywords) : Lays isWordByte t [kind] :=
  lays_of_spells fun _ hr => .keyword ht hr

lemma lays_constant (ht : isConstant t = true) : Lays isWordByte t [.constant t] :=
  lays_of_spells fun _ hr => .constant ht hr

lemma lays_identifier (ht : isIdentifier t = true) : Lays isWordByte t [.identifier t] :=
  lays_of_spells fun _ hr => .identifier ht hr

lemma lays_arrow : Lays (fun _ => false) [0x2D, 0x3E] [.arrow] :=
  lays_of_spells fun rest _ => .arrow rest

lemma lays_punctuation {b : UInt8} {kind : Kind} (hb : (b, kind) ∈ punctuation) :
    Lays (fun _ => false) [b] [kind] :=
  lays_of_spells fun rest _ => .punctuation rest hb

/-- An operator must not be followed by a greater-than sign, which could make it an arrow. -/
lemma lays_operator {b : UInt8} (hb : isOperator b = true) :
    Lays (· == 0x3E) [b] [.operator b.toNat] :=
  lays_of_spells fun rest hr => .operator hb fun ⟨_, hh⟩ => by simpa using hr 0x3E hh

/-- A quoted text spells the literal with its value in front of every text. -/
lemma spells_encode {printable : Nat → Bool} (hp : printable 0x0A = false) (v rest : Text) :
    Spells (Text.Quoted.encode printable v) (some (.string v)) rest := by
  have hd := Text.Quoted.decode_body hp v
  exact .string rest (Text.Quoted.closed_of_decode hd).ne_newline hd

lemma lays_quote (v : Text) : Lays (fun _ => false) v.quote [.string v] :=
  lays_of_spells fun rest _ => spells_encode Text.excludesControls_isPrintable.newline v rest

/-! ### Numbers -/

lemma toNat_digit {d : Nat} (h : d < 10) : (Text.digit d).toNat = 0x30 + d := by
  rw [Text.digit, Text.toNat_toUInt8 (by omega)]

/-- A number in decimal consists of digits and has the value of the number. -/
lemma value_ofNat (n : Nat) : Text.value (Text.ofNat n) = n ∧ Text.ofNat n ≠ [] ∧
    ∀ b ∈ Text.ofNat n, isDigit b = true := by
  have digit : ∀ d < 10, isDigit (Text.digit d) = true := fun d hd => by
    rw [isDigit_iff, toNat_digit hd]
    omega
  induction n using Text.ofNat.induct with
  | case1 n hn =>
    rw [Text.ofNat, if_pos hn]
    refine ⟨?_, by simp, List.forall_mem_singleton.2 (digit n hn)⟩
    simpa [toNat_digit hn] using Text.value_append [] (Text.digit n)
  | case2 n hn ih =>
    obtain ⟨hv, -, hd⟩ := ih
    rw [Text.ofNat, if_neg hn]
    have hm : n % 10 < 10 := Nat.mod_lt n (by omega)
    refine ⟨?_, by simp, List.forall_mem_append.2 ⟨hd, List.forall_mem_singleton.2 (digit _ hm)⟩⟩
    rw [Text.value_append, hv, toNat_digit hm]
    omega

lemma lays_number (v : UInt64) : Lays isDigit (Text.ofNat v.toNat) [.number v] := by
  obtain ⟨hv, hne, hd⟩ := value_ofNat v.toNat
  have hlt : v.toNat < 2 ^ 64 := v.toNat_lt
  refine lays_of_spells fun rest hr => ?_
  have := Spells.number hne hd (by rwa [hv]) hr
  rwa [hv, UInt64.ofNat_toNat] at this

end Frontend.Lexer
