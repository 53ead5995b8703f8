import Frontend.Token.Lexer
import Frontend.Proofs.Text.Quoted

/-!
# The lexical grammar

`Spells p kind rest` says what a piece of text can be in front of the text that follows it: the
spelling of one token, or a comment. `Cut text lexemes rest` cuts such pieces off a text one after
the other.

The lexer finds the one way to cut a text: `piece_of_spells` and `spells_of_piece` tie a single
piece to the rules above, and the rest follows by induction over the cut.
-/

namespace Frontend.Lexer

/-! ### Names -/

/-- A word: a letter or underscore, and then letters, digits and underscores. -/
def isWord : Text → Bool
  | []     => false
  | b :: t => isLetter b && t.all isWordByte

/-- A text starts with a capital letter. -/
def startsCapital (t : Text) : Bool := t.head?.any isCapital

/-- A word that names a class, a trait or a type. -/
def isConstant (t : Text) : Bool := isWord t && startsCapital t

/-- A word that names a function or a variable. -/
def isIdentifier (t : Text) : Bool :=
  isWord t && !startsCapital t && (Kind.ofKeyword? t).isNone

/-- The bytes that are tokens of their own. -/
def punctuation : List (UInt8 × Kind) :=
  [(0x28, .leftParen), (0x29, .rightParen), (0x2C, .comma), (0x2E, .dot), (0x3D, .assign)]

/-- A text does not go on with a byte of a class. -/
def Stops (p : UInt8 → Bool) (t : Text) : Prop := ∀ b ∈ t.head?, p b = false

/-! ### Pieces -/

/-- A piece of text, if it is not a comment, spells a token in front of what follows it. -/
inductive Spells : Text → Option Kind → Text → Prop
  | newline (rest : Text) : Spells [0x0A] (some .newline) rest
  /-- A maximal run of blanks. -/
  | space {p rest : Text} (hne : p ≠ []) (hp : ∀ b ∈ p, isBlank b = true)
      (hr : Stops isBlank rest) : Spells p (some .space) rest
  /-- A comment goes on up to the end of its line. -/
  | comment {p rest : Text} (hp : ∀ b ∈ p, b ≠ 0x0A) (hr : Stops (· != 0x0A) rest) :
      Spells (0x23 :: p) none rest
  | keyword {p rest : Text} {kind : Kind} (hp : (p, kind) ∈ Kind.keywords)
      (hr : Stops isWordByte rest) : Spells p (some kind) rest
  | constant {p rest : Text} (hp : isConstant p = true) (hr : Stops isWordByte rest) :
      Spells p (some (.constant p)) rest
  | identifier {p rest : Text} (hp : isIdentifier p = true) (hr : Stops isWordByte rest) :
      Spells p (some (.identifier p)) rest
  /-- A maximal run of digits whose value fits into 64 bits. -/
  | number {p rest : Text} (hne : p ≠ []) (hp : ∀ b ∈ p, isDigit b = true)
      (hv : Text.value p < 2 ^ 64) (hr : Stops isDigit rest) :
      Spells p (some (.number (.ofNat (Text.value p)))) rest
  /-- A literal on one line whose escapes can be read. -/
  | string {body value : Text} (rest : Text) (hn : ∀ b ∈ body, b ≠ 0x0A)
      (hb : Text.Quoted.decode body = some value) :
      Spells (0x22 :: (body ++ [0x22])) (some (.string value)) rest
  | arrow (rest : Text) : Spells [0x2D, 0x3E] (some .arrow) rest
  | punctuation {b : UInt8} {kind : Kind} (rest : Text) (hb : (b, kind) ∈ punctuation) :
      Spells [b] (some kind) rest
  /-- An operator character; a minus sign in front of a greater-than sign is none. -/
  | operator {b : UInt8} {rest : Text} (hb : isOperator b = true)
      (hr : ¬(b = 0x2D ∧ rest.head? = some 0x3E)) :
      Spells [b] (some (.operator b.toNat)) rest

/-! ### Classes of bytes -/

section Classes

variable {b : UInt8}

lemma ne_of_class {p : UInt8 → Bool} {c : UInt8} (h : p b = true) (hc : p c = false) : b ≠ c := by
  rintro rfl
  simp [h] at hc

lemma isBlank_cases (h : isBlank b = true) : b = 0x20 ∨ b = 0x09 ∨ b = 0x0D := by
  simpa [isBlank, or_assoc] using h

lemma isDigit_iff : isDigit b = true ↔ 0x30 ≤ b.toNat ∧ b.toNat ≤ 0x39 := by
  simp [isDigit, UInt8.le_iff_toNat_le]

lemma isLetter_iff : isLetter b = true ↔
    0x61 ≤ b.toNat ∧ b.toNat ≤ 0x7A ∨ 0x41 ≤ b.toNat ∧ b.toNat ≤ 0x5A ∨ b.toNat = 0x5F := by
  simp [isLetter, isCapital, UInt8.le_iff_toNat_le, ← UInt8.toNat_inj, or_assoc]

lemma not_isLetter_of_isDigit (h : isDigit b = true) : isLetter b = false := by
  rw [← Bool.not_eq_true, isLetter_iff]
  have := isDigit_iff.1 h
  omega

lemma classOf_blank (h : isBlank b = true) : classOf b = .blank := by
  obtain rfl | rfl | rfl := isBlank_cases h <;> rfl

lemma not_isBlank {p : UInt8 → Bool} (h : p b = true) (h₁ : p 0x20 = false) (h₂ : p 0x09 = false)
    (h₃ : p 0x0D = false) : ¬isBlank b = true := by
  intro hb
  obtain rfl | rfl | rfl := isBlank_cases hb
  · simp [h] at h₁
  · simp [h] at h₂
  · simp [h] at h₃

lemma classOf_letter (h : isLetter b = true) : classOf b = .letter := by
  rw [classOf, if_neg (ne_of_class h (by decide)), if_neg (not_isBlank h (by decide) (by decide)
    (by decide)), if_neg (ne_of_class h (by decide)), if_pos h]

lemma classOf_digit (h : isDigit b = true) : classOf b = .digit := by
  rw [classOf, if_neg (ne_of_class h (by decide)), if_neg (not_isBlank h (by decide) (by decide)
    (by decide)), if_neg (ne_of_class h (by decide)),
    if_neg (by simp [not_isLetter_of_isDigit h]), if_pos h]

lemma classOf_punctuation {kind : Kind} (h : (b, kind) ∈ punctuation) :
    classOf b = .punctuation kind := by
  simp only [punctuation, List.mem_cons, Prod.mk.injEq, List.not_mem_nil, or_false] at h
  rcases h with ⟨rfl, rfl⟩ | ⟨rfl, rfl⟩ | ⟨rfl, rfl⟩ | ⟨rfl, rfl⟩ | ⟨rfl, rfl⟩ <;> rfl

lemma operators_eq : operators = [0x2B, 0x2D, 0x2A, 0x2F, 0x25, 0x3C, 0x3E, 0x21, 0x26, 0x7C, 0x5E,
    0x7E, 0x3F, 0x40, 0x24, 0x3A, 0x3B, 0x5B, 0x5D, 0x7B, 0x7D, 0x5C, 0x27, 0x60] := by decide

lemma classOf_operator (h : isOperator b = true) : classOf b = .operator := by
  have key : ∀ c ∈ operators, classOf c = .operator := by
    simp only [classOf, isOperator, operators_eq]
    decide +kernel
  exact key b (by simpa [isOperator] using h)

/-- What the class of a byte says about it. -/
lemma classOf_spec {cls : ByteClass} (h : classOf b = cls) :
    match cls with
    | .newline          => b = 0x0A
    | .blank            => isBlank b = true
    | .hash             => b = 0x23
    | .letter           => isLetter b = true
    | .digit            => isDigit b = true
    | .quote            => b = 0x22
    | .punctuation kind => (b, kind) ∈ punctuation
    | .operator         => isOperator b = true
    | .other            => True := by
  rw [classOf] at h
  -- the classes are tried in this order
  rcases ite_eq_iff.1 h with ⟨hb, rfl⟩ | ⟨-, h⟩
  · exact hb
  rcases ite_eq_iff.1 h with ⟨hb, rfl⟩ | ⟨-, h⟩
  · exact hb
  rcases ite_eq_iff.1 h with ⟨hb, rfl⟩ | ⟨-, h⟩
  · exact hb
  rcases ite_eq_iff.1 h with ⟨hb, rfl⟩ | ⟨-, h⟩
  · exact hb
  rcases ite_eq_iff.1 h with ⟨hb, rfl⟩ | ⟨-, h⟩
  · exact hb
  rcases ite_eq_iff.1 h with ⟨hb, rfl⟩ | ⟨-, h⟩
  · exact hb
  -- punctuation is one byte each, and is looked up in the table
  rcases ite_eq_iff.1 h with ⟨rfl, rfl⟩ | ⟨-, h⟩
  · show (_, _) ∈ punctuation
    decide
  rcases ite_eq_iff.1 h with ⟨rfl, rfl⟩ | ⟨-, h⟩
  · show (_, _) ∈ punctuation
    decide
  rcases ite_eq_iff.1 h with ⟨rfl, rfl⟩ | ⟨-, h⟩
  · show (_, _) ∈ punctuation
    decide
  rcases ite_eq_iff.1 h with ⟨rfl, rfl⟩ | ⟨-, h⟩
  · show (_, _) ∈ punctuation
    decide
  rcases ite_eq_iff.1 h with ⟨rfl, rfl⟩ | ⟨-, h⟩
  · show (_, _) ∈ punctuation
    decide
  -- everything else is an operator or starts no token
  rcases ite_eq_iff.1 h with ⟨hb, rfl⟩ | ⟨-, rfl⟩
  · exact hb
  · trivial

end Classes

/-! ### String literals -/

lemma literalBody?_plain {b : UInt8} (h : Text.Quoted.IsPlain b) (t : Text) :
    literalBody? (b :: t) = (literalBody? t).map (b :: ·) := by
  obtain ⟨h₁, h₂, h₃⟩ := h
  rw [literalBody?.eq_def]
  split <;> simp_all

lemma literalBody?_escape (b : UInt8) (t : Text) :
    literalBody? (0x5C :: b :: t) = (literalBody? t).map (0x5C :: b :: ·) := by
  simp [literalBody?]

lemma literalBody?_of_closed {body : Text} (h : Text.Quoted.Closed body) (rest : Text) :
    literalBody? (body ++ 0x22 :: rest) = some body := by
  induction h with
  | nil => simp [literalBody?]
  | plain hb _ ih => rw [List.cons_append, literalBody?_plain hb, ih, Option.map_some]
  | escape _ _ ih =>
    rw [List.cons_append, List.cons_append, literalBody?_escape, ih, Option.map_some]

lemma eq_append_of_literalBody? {t body : Text} (h : literalBody? t = some body) :
    ∃ rest, t = body ++ 0x22 :: rest := by
  fun_induction literalBody? t generalizing body with
  | case1 => simp at h
  | case2 => simp at h
  | case3 t =>
    obtain rfl := Option.some.inj h
    exact ⟨t, rfl⟩
  | case4 => simp at h
  | case5 b t ih =>
    obtain ⟨body, hb, rfl⟩ := Option.map_eq_some_iff.1 h
    obtain ⟨rest, rfl⟩ := ih hb
    exact ⟨rest, rfl⟩
  | case6 b t _ _ _ _ ih =>
    obtain ⟨body, hb, rfl⟩ := Option.map_eq_some_iff.1 h
    obtain ⟨rest, rfl⟩ := ih hb
    exact ⟨rest, rfl⟩

/-! ### Maximal runs -/

lemma stops_dropWhile (p : UInt8 → Bool) (t : Text) : Stops p (t.dropWhile p) := by
  intro b hb
  have := List.head?_dropWhile_not p t
  rw [Option.mem_def.1 hb] at this
  exact this

lemma stops_append {p : UInt8 → Bool} {u : Text} (hu : Stops p u) (hne : u ≠ []) (t : Text) :
    Stops p (u ++ t) := by
  match u with
  | []     => exact absurd rfl hne
  | b :: u => exact hu

lemma takeWhile_append_of_stops {p : UInt8 → Bool} {u t : Text} (hu : ∀ b ∈ u, p b = true)
    (ht : Stops p t) : (u ++ t).takeWhile p = u := by
  rw [List.takeWhile_append_of_pos hu]
  match t with
  | []     => simp
  | b :: t => simp [ht b rfl]

/-- The longest beginning of a text in a class, and what follows it. -/
lemma exists_maximal_run (p : UInt8 → Bool) (t : Text) :
    ∃ u rest, t = u ++ rest ∧ t.takeWhile p = u ∧ (∀ b ∈ u, p b = true) ∧ Stops p rest :=
  ⟨t.takeWhile p, t.dropWhile p, List.takeWhile_append_dropWhile.symm, rfl,
    fun _ hb => List.mem_takeWhile_imp hb, stops_dropWhile p t⟩

/-! ### Words -/

lemma isWord_cons {b : UInt8} {t : Text} :
    isWord (b :: t) = true ↔ isLetter b = true ∧ ∀ c ∈ t, isWordByte c = true := by
  simp [isWord]

lemma isWordByte_of_isWord {t : Text} (h : isWord t = true) : ∀ c ∈ t, isWordByte c = true := by
  match t with
  | []     => simp
  | b :: t =>
    obtain ⟨hb, ht⟩ := isWord_cons.1 h
    exact List.forall_mem_cons.2 ⟨by simp [isWordByte, hb], ht⟩

lemma startsCapital_cons (b : UInt8) (t : Text) : startsCapital (b :: t) = isCapital b := by
  simp [startsCapital]

lemma ofKeyword?_eq_some_iff {p : Text} {kind : Kind} :
    Kind.ofKeyword? p = some kind ↔ (p, kind) ∈ Kind.keywords := by
  have nodup : (Kind.keywords.map Prod.fst).Nodup := by decide
  constructor
  · intro h
    obtain ⟨u, v, he, -⟩ := List.lookup_eq_some_iff.1 h
    rw [he]
    simp
  · intro h
    obtain ⟨u, v, he⟩ := List.append_of_mem h
    refine List.lookup_eq_some_iff.2 ⟨u, v, he, ?_⟩
    rw [he, List.map_append, List.map_cons] at nodup
    rintro ⟨q, k⟩ hq
    have hd := List.disjoint_of_nodup_append nodup
    simp only [bne_iff_ne, ne_eq]
    rintro rfl
    exact hd (List.mem_map_of_mem hq) List.mem_cons_self

/-- Keywords are words that start with no capital letter. -/
lemma forall_mem_keywords : ∀ w ∈ Kind.keywords, isWord w.1 = true ∧ startsCapital w.1 = false := by
  decide

/-- A word is a keyword, a constant or an identifier, and only one of them. -/
lemma wordKind_eq_iff {b : UInt8} {t : Text} (h : isWord (b :: t) = true) {kind : Kind} :
    wordKind b (b :: t) = kind ↔ (b :: t, kind) ∈ Kind.keywords ∨
      isConstant (b :: t) = true ∧ kind = .constant (b :: t) ∨
      isIdentifier (b :: t) = true ∧ kind = .identifier (b :: t) := by
  simp only [isConstant, isIdentifier, h, Bool.true_and, Bool.and_eq_true,
    ← ofKeyword?_eq_some_iff, wordKind]
  cases hk : Kind.ofKeyword? (b :: t) with
  | some k =>
    have hc := (forall_mem_keywords _ (ofKeyword?_eq_some_iff.1 hk)).2
    simp [hc]
  | none =>
    rw [startsCapital_cons]
    cases isCapital b <;> simp [eq_comm]

/-! ### The lexer cuts off what the grammar says -/

lemma ne_nil_of_spells {p rest : Text} {kind : Option Kind} (h : Spells p kind rest) : p ≠ [] := by
  cases h with
  | space hne => exact hne
  | number hne => exact hne
  | keyword hp =>
    rintro rfl
    simpa [isWord] using (forall_mem_keywords _ hp).1
  | constant hp => rintro rfl; simp [isConstant, isWord] at hp
  | identifier hp => rintro rfl; simp [isIdentifier, isWord] at hp
  | _ => simp

lemma piece_word {b : UInt8} {t rest : Text} (hw : isWord (b :: t) = true)
    (hr : Stops isWordByte rest) :
    piece b (t ++ rest) = .ok ⟨some (wordKind b (b :: t)), t.length⟩ := by
  obtain ⟨hb, ht⟩ := isWord_cons.1 hw
  simp only [piece, classOf_letter hb, takeWhile_append_of_stops ht hr]

lemma piece_of_spells {b : UInt8} {p rest : Text} {kind : Option Kind}
    (h : Spells (b :: p) kind rest) : piece b (p ++ rest) = .ok ⟨kind, p.length⟩ := by
  generalize hq : b :: p = q at h
  cases h with
  | newline =>
    obtain ⟨rfl, rfl⟩ := List.cons.inj hq
    rfl
  | space hne hp hr =>
    subst hq
    rw [List.forall_mem_cons] at hp
    simp only [piece, classOf_blank hp.1, takeWhile_append_of_stops hp.2 hr]
  | comment hp hr =>
    obtain ⟨rfl, rfl⟩ := List.cons.inj hq
    have hp' : ∀ c ∈ p, (c != 0x0A) = true := fun c hc => bne_iff_ne.2 (hp c hc)
    simp only [piece, show classOf 0x23 = .hash from rfl, takeWhile_append_of_stops hp' hr]
  -- words: the three kinds exclude each other
  | keyword hp hr =>
    subst hq
    have hw := (forall_mem_keywords _ hp).1
    rw [piece_word hw hr, (wordKind_eq_iff hw).2 (.inl hp)]
  | constant hp hr =>
    subst hq
    have hw : isWord (b :: p) = true := (Bool.and_eq_true_iff.1 hp).1
    rw [piece_word hw hr, (wordKind_eq_iff hw).2 (.inr (.inl ⟨hp, rfl⟩))]
  | identifier hp hr =>
    subst hq
    have hw : isWord (b :: p) = true := by
      simp only [isIdentifier, Bool.and_eq_true] at hp
      exact hp.1.1
    rw [piece_word hw hr, (wordKind_eq_iff hw).2 (.inr (.inr ⟨hp, rfl⟩))]
  -- literals: a string ends at the first quote that is not escaped
  | number hne hp hv hr =>
    subst hq
    rw [List.forall_mem_cons] at hp
    have hlt : Text.value (b :: p) < UInt64.size := hv
    simp only [piece, classOf_digit hp.1, takeWhile_append_of_stops hp.2 hr, if_pos hlt]
  | @string body value _ hn hb =>
    obtain ⟨rfl, rfl⟩ := List.cons.inj hq
    have hl : literalBody? (body ++ [0x22] ++ rest) = some body := by
      rw [List.append_assoc]
      exact literalBody?_of_closed (Text.Quoted.closed_of_decode hb) rest
    simp only [piece, show classOf 0x22 = .quote from rfl, hl, hb, List.length_append,
      List.length_singleton]
  -- signs: the arrow is tried before the operator it starts with
  | arrow =>
    obtain ⟨rfl, rfl⟩ := List.cons.inj hq
    simp [piece, show classOf 0x2D = .operator from rfl]
  | punctuation _ hb =>
    obtain ⟨rfl, rfl⟩ := List.cons.inj hq
    simp only [piece, classOf_punctuation hb, List.length_nil]
  | operator hb hr =>
    obtain ⟨rfl, rfl⟩ := List.cons.inj hq
    simp only [piece, classOf_operator hb, List.nil_append, if_neg hr, List.length_nil]

lemma spells_of_piece {b : UInt8} {t : Text} {kind : Option Kind} {more : Nat}
    (h : piece b t = .ok ⟨kind, more⟩) :
    ∃ p rest, t = p ++ rest ∧ p.length = more ∧ Spells (b :: p) kind rest := by
  unfold piece at h
  split at h
  -- white space and comments: the maximal run is what the spelling asks for
  case h_1 hc =>
    obtain rfl : b = 0x0A := classOf_spec hc
    obtain ⟨rfl, rfl⟩ := Piece.mk.inj (Except.ok.inj h)
    exact ⟨[], t, rfl, rfl, .newline t⟩
  case h_2 hc =>
    obtain ⟨rfl, rfl⟩ := Piece.mk.inj (Except.ok.inj h)
    obtain ⟨p, rest, rfl, hp, hall, hr⟩ := exists_maximal_run isBlank t
    refine ⟨p, rest, rfl, by rw [hp], .space (by simp) ?_ hr⟩
    exact List.forall_mem_cons.2 ⟨classOf_spec hc, hall⟩
  case h_3 hc =>
    obtain rfl : b = 0x23 := classOf_spec hc
    obtain ⟨rfl, rfl⟩ := Piece.mk.inj (Except.ok.inj h)
    obtain ⟨p, rest, rfl, hp, hall, hr⟩ := exists_maximal_run (· != 0x0A) t
    exact ⟨p, rest, rfl, by rw [hp], .comment (fun c hc => bne_iff_ne.1 (hall c hc)) hr⟩
  -- words
  case h_4 hc =>
    obtain ⟨hk, rfl⟩ := Piece.mk.inj (Except.ok.inj h)
    obtain ⟨p, rest, rfl, hp, hall, hr⟩ := exists_maximal_run isWordByte t
    have hw : isWord (b :: p) = true := isWord_cons.2 ⟨classOf_spec hc, hall⟩
    refine ⟨p, rest, rfl, by rw [hp], ?_⟩
    rw [hp] at hk
    subst hk
    rcases (wordKind_eq_iff hw).1 rfl with hk | ⟨hk, he⟩ | ⟨hk, he⟩
    · exact .keyword hk hr
    · rw [he]
      exact .constant hk hr
    · rw [he]
      exact .identifier hk hr
  -- literals: the value has to fit 64 bits, or the body has to decode
  case h_5 hc =>
    obtain ⟨p, rest, rfl, hp, hall, hr⟩ := exists_maximal_run isDigit t
    rw [hp] at h
    dsimp only at h
    split_ifs at h with hv
    obtain ⟨rfl, rfl⟩ := Piece.mk.inj (Except.ok.inj h)
    refine ⟨p, rest, rfl, rfl, .number (by simp) ?_ hv hr⟩
    exact List.forall_mem_cons.2 ⟨classOf_spec hc, hall⟩
  case h_6 hc =>
    obtain rfl : b = 0x22 := classOf_spec hc
    split at h
    case h_1 => simp at h
    case h_2 body hl =>
      split at h
      case h_1 value hv =>
        obtain ⟨rfl, rfl⟩ := Piece.mk.inj (Except.ok.inj h)
        obtain ⟨rest, rfl⟩ := eq_append_of_literalBody? hl
        refine ⟨body ++ [0x22], rest, by simp, by simp, .string rest ?_ hv⟩
        exact (Text.Quoted.closed_of_decode hv).ne_newline
      case h_2 => simp at h
  -- signs
  case h_7 k hc =>
    obtain ⟨rfl, rfl⟩ := Piece.mk.inj (Except.ok.inj h)
    exact ⟨[], t, rfl, rfl, .punctuation t (classOf_spec hc)⟩
  case h_8 hc =>
    split_ifs at h with ha
    · obtain ⟨rfl, ht⟩ := ha
      obtain ⟨rfl, rfl⟩ := Piece.mk.inj (Except.ok.inj h)
      obtain ⟨rest, rfl⟩ := List.head?_eq_some_iff.1 ht
      exact ⟨[0x3E], rest, rfl, rfl, .arrow rest⟩
    · obtain ⟨rfl, rfl⟩ := Piece.mk.inj (Except.ok.inj h)
      exact ⟨[], t, rfl, rfl, .operator (classOf_spec hc) ha⟩
  -- no piece starts with any other byte
  case h_9 =>
    split at h <;> simp at h

/-- At most one piece can be cut off a text. -/
lemma Spells.unique {p q rest rest' : Text} {k k' : Option Kind} (h : Spells p k rest)
    (h' : Spells q k' rest') (he : p ++ rest = q ++ rest') : p = q ∧ k = k' ∧ rest = rest' := by
  obtain ⟨b, p, rfl⟩ := List.exists_cons_of_ne_nil (ne_nil_of_spells h)
  obtain ⟨c, q, rfl⟩ := List.exists_cons_of_ne_nil (ne_nil_of_spells h')
  obtain ⟨rfl, ht⟩ := List.cons.inj he
  have hp := piece_of_spells h
  rw [show p ++ rest = q ++ rest' from ht, piece_of_spells h'] at hp
  obtain ⟨hk, hl⟩ := Piece.mk.inj (Except.ok.inj hp)
  obtain ⟨rfl, rfl⟩ := List.append_inj ht hl.symm
  exact ⟨rfl, hk.symm, rfl⟩

/-! ### Cutting a text -/

/-- A piece of text with the token that it spells, if it is not a comment. -/
structure Lexeme where
  text : Text
  kind : Option Kind
  deriving DecidableEq, Repr

/-- The lexemes stand at the start of a text one after the other, and something is left. -/
inductive Cut : Text → List Lexeme → Text → Prop
  | nil (t : Text) : Cut t [] t
  | cons {p u rest : Text} {kind : Option Kind} {ls : List Lexeme} (h : Spells p kind u)
      (hs : Cut u ls rest) : Cut (p ++ u) (⟨p, kind⟩ :: ls) rest

/-- The text that lexemes were cut from. -/
def source (ls : List Lexeme) : Text := ls.flatMap Lexeme.text

/-- The tokens of lexemes, the first of which has the given offset. -/
def place (pos : Int) : List Lexeme → List Token
  | []                    => []
  | ⟨p, some kind⟩ :: ls => ⟨kind, pos⟩ :: place (pos + p.length) ls
  | ⟨p, none⟩ :: ls      => place (pos + p.length) ls

/-- No piece can be cut off a text, although it is not empty. -/
def Stuck (t : Text) : Prop := t ≠ [] ∧ ∀ p kind rest, t = p ++ rest → ¬Spells p kind rest

/-- Two cuts of one text agree as far as the shorter one goes. -/
lemma Cut.comparable {t rest rest' : Text} {ls ms : List Lexeme} (h : Cut t ls rest)
    (h' : Cut t ms rest') : (∃ ns, ms = ls ++ ns ∧ Cut rest ns rest') ∨
      ∃ ns, ls = ms ++ ns ∧ Cut rest' ns rest := by
  induction h generalizing ms with
  | nil t => exact .inl ⟨ms, rfl, h'⟩
  | @cons p u rest k ls hp hs ih =>
    generalize he : p ++ u = t at h'
    cases h' with
    | nil => exact .inr ⟨_, rfl, he ▸ .cons hp hs⟩
    | cons hq hs' =>
      obtain ⟨rfl, rfl, rfl⟩ := hp.unique hq he
      rcases ih hs' with ⟨ns, rfl, hn⟩ | ⟨ns, rfl, hn⟩
      · exact .inl ⟨ns, rfl, hn⟩
      · exact .inr ⟨ns, rfl, hn⟩

lemma source_cons (l : Lexeme) (ls : List Lexeme) : source (l :: ls) = l.text ++ source ls := rfl

lemma place_cons (pos : Int) (p : Text) (kind : Option Kind) (ls : List Lexeme) :
    place pos (⟨p, kind⟩ :: ls) = place pos [⟨p, kind⟩] ++ place (pos + p.length) ls := by
  cases kind <;> rfl

lemma Cut.text_ne_nil {t rest : Text} {ls : List Lexeme} (h : Cut t ls rest) :
    ∀ l ∈ ls, l.text ≠ [] := by
  induction h with
  | nil => simp
  | cons hp _ ih => exact List.forall_mem_cons.2 ⟨ne_nil_of_spells hp, ih⟩

lemma Cut.eq_nil {rest : Text} {ls : List Lexeme} (h : Cut [] ls rest) : ls = [] := by
  generalize he : ([] : Text) = t at h
  cases h with
  | nil => rfl
  | cons hp _ => exact absurd (List.append_eq_nil_iff.1 he.symm).1 (ne_nil_of_spells hp)

lemma Cut.eq_nil_of_stuck {t rest : Text} {ls : List Lexeme} (h : Cut t ls rest) (ht : Stuck t) :
    ls = [] := by
  cases h with
  | nil => rfl
  | cons hp _ => exact absurd hp (ht.2 _ _ _ rfl)

/-- No text is left forever: what is left in the end is empty or stuck. -/
lemma exists_cut (t : Text) : ∃ ls rest, Cut t ls rest ∧ (rest = [] ∨ Stuck rest) := by
  by_cases h : ∃ p kind rest, t = p ++ rest ∧ Spells p kind rest
  · obtain ⟨p, kind, u, rfl, hp⟩ := h
    have hlen := List.length_pos_of_ne_nil (ne_nil_of_spells hp)
    obtain ⟨ls, rest, hc, hr⟩ := exists_cut u
    exact ⟨⟨p, kind⟩ :: ls, rest, .cons hp hc, hr⟩
  · refine ⟨[], t, .nil t, ?_⟩
    by_cases ht : t = []
    · exact .inl ht
    · exact .inr ⟨ht, fun p kind rest he hp => h ⟨p, kind, rest, he, hp⟩⟩
termination_by t.length
decreasing_by
  subst t
  simp only [List.length_append]
  omega

/-! ### Tokens -/

lemma tokens_append_of_spells {p u : Text} {kind : Option Kind} (h : Spells p kind u) (pos : Int) :
    tokens (p ++ u) pos = (tokens u (pos + p.length)).map (place pos [⟨p, kind⟩] ++ ·) := by
  obtain ⟨b, p, rfl⟩ := List.exists_cons_of_ne_nil (ne_nil_of_spells h)
  have hpos : pos + 1 + p.length = pos + (b :: p).length := by
    simp only [List.length_cons]
    omega
  rw [List.cons_append, tokens, piece_of_spells h]
  simp only [List.drop_left, hpos]
  cases tokens u (pos + (b :: p).length) with
  | error e => rfl
  | ok ts => cases kind <;> rfl

lemma tokens_of_stuck {t : Text} (h : Stuck t) (pos : Int) :
    ∃ cause, tokens t pos = .error ⟨cause, pos⟩ := by
  obtain ⟨b, t, rfl⟩ := List.exists_cons_of_ne_nil h.1
  cases hp : piece b t with
  | error cause => exact ⟨cause, by rw [tokens, hp]⟩
  | ok q =>
    obtain ⟨kind, more⟩ := q
    obtain ⟨p, rest, rfl, -, hs⟩ := spells_of_piece hp
    exact absurd hs (h.2 _ _ _ rfl)

/-- The tokens of a text are those of the lexemes cut off it and those of what is left. -/
lemma tokens_of_cut {t rest : Text} {ls : List Lexeme} (h : Cut t ls rest) (pos : Int) :
    tokens t pos = (tokens rest (pos + (source ls).length)).map (place pos ls ++ ·) := by
  induction h generalizing pos with
  | nil t =>
    simp only [source, List.flatMap_nil, List.length_nil, Nat.cast_zero, add_zero]
    cases tokens t pos <;> rfl
  | @cons p u rest kind ls hp _ ih =>
    have hpos : pos + p.length + (source ls).length = pos + (source (⟨p, kind⟩ :: ls)).length := by
      rw [source_cons, List.length_append]
      push_cast
      omega
    rw [tokens_append_of_spells hp, ih, hpos, place_cons pos p kind ls]
    cases tokens rest (pos + (source (⟨p, kind⟩ :: ls)).length) with
    | error e => rfl
    | ok ts => exact congrArg Except.ok (List.append_assoc _ _ _).symm

lemma tokens_of_cut_nil {t : Text} {ls : List Lexeme} (h : Cut t ls []) (pos : Int) :
    tokens t pos = .ok (place pos ls) := by
  rw [tokens_of_cut h, tokens]
  exact congrArg Except.ok (List.append_nil _)

lemma exists_cut_of_tokens {t : Text} {pos : Int} {ts : List Token} (h : tokens t pos = .ok ts) :
    ∃ ls, Cut t ls [] ∧ ts = place pos ls := by
  obtain ⟨ls, rest, hc, rfl | hr⟩ := exists_cut t
  · exact ⟨ls, hc, Except.ok.inj (h.symm.trans (tokens_of_cut_nil hc pos))⟩
  · obtain ⟨cause, he⟩ := tokens_of_stuck hr (pos + (source ls).length)
    rw [tokens_of_cut hc, he] at h
    cases h

lemma le_pos_of_mem_place {ls : List Lexeme} {pos : Int} : ∀ t ∈ place pos ls, pos ≤ t.pos := by
  induction ls generalizing pos with
  | nil => simp [place]
  | cons l ls ih =>
    obtain ⟨p, kind⟩ := l
    have hle : ∀ t ∈ place (pos + p.length) ls, pos ≤ t.pos := fun t ht => by
      have := ih t ht
      omega
    cases kind with
    | none => exact hle
    | some kind => exact List.forall_mem_cons.2 ⟨le_rfl, hle⟩

lemma pairwise_place {ls : List Lexeme} (h : ∀ l ∈ ls, l.text ≠ []) (pos : Int) :
    (place pos ls).Pairwise fun a b => a.pos < b.pos := by
  induction ls generalizing pos with
  | nil => exact .nil
  | cons l ls ih =>
    obtain ⟨p, kind⟩ := l
    obtain ⟨hp, hls⟩ := List.forall_mem_cons.1 h
    have hlen : 0 < p.length := List.length_pos_of_ne_nil hp
    cases kind with
    | none => exact ih hls _
    | some kind =>
      refine List.pairwise_cons.2 ⟨fun t ht => ?_, ih hls _⟩
      have := le_pos_of_mem_place t ht
      simp only at this ⊢
      omega

/-- A text can be lexed exactly if it can be cut into comments and spellings of tokens. There is
one way to do so, and the tokens are those of its pieces, each at the offset where its piece
starts. An error is at the first place where no piece can be cut off. -/
theorem tokens_exact (text : Text) (offs : Int) :
    ((∃ ts, tokens text offs = .ok ts) ↔ ∃ ls, Cut text ls []) ∧
      (∀ ls, Cut text ls [] → (∀ ms, Cut text ms [] → ms = ls) ∧ (∀ l ∈ ls, l.text ≠ []) ∧
        tokens text offs = .ok (place offs ls) ∧
        (place offs ls).Pairwise fun a b => a.pos < b.pos) ∧
      ∀ e, tokens text offs = .error e → ∃ ls rest, Cut text ls rest ∧ Stuck rest ∧
        (∀ ms rest', Cut text ms rest' → ms <+: ls) ∧ e.pos = offs + (source ls).length := by
  refine ⟨⟨?_, ?_⟩, ?_, ?_⟩
  · -- a text that is lexed is cut into pieces, and the other way round
    rintro ⟨ts, h⟩
    obtain ⟨ls, hc, -⟩ := exists_cut_of_tokens h
    exact ⟨ls, hc⟩
  · rintro ⟨ls, hc⟩
    exact ⟨place offs ls, tokens_of_cut_nil hc offs⟩
  · -- there is one cut, since of two cuts one continues the other
    intro ls hc
    refine ⟨fun ms hm => ?_, hc.text_ne_nil, tokens_of_cut_nil hc offs,
      pairwise_place hc.text_ne_nil offs⟩
    rcases hc.comparable hm with ⟨ns, rfl, hn⟩ | ⟨ns, rfl, hn⟩
    · rw [hn.eq_nil, List.append_nil]
    · rw [hn.eq_nil, List.append_nil]
  · -- an error stands where the longest cut gets stuck
    intro e he
    obtain ⟨ls, rest, hc, rfl | hr⟩ := exists_cut text
    · rw [tokens_of_cut_nil hc] at he
      cases he
    refine ⟨ls, rest, hc, hr, fun ms rest' hm => ?_, ?_⟩
    · rcases hc.comparable hm with ⟨ns, rfl, hn⟩ | ⟨ns, rfl, -⟩
      · rw [hn.eq_nil_of_stuck hr, List.append_nil]
      · exact List.prefix_append ms ns
    · obtain ⟨cause, hs⟩ := tokens_of_stuck hr (offs + (source ls).length)
      rw [tokens_of_cut hc, hs] at he
      obtain rfl := Except.error.inj he
      rfl

/-- Zeros in front do not count, and a run of digits that has no value in 64 bits is no number. -/
example : tokens (Text.ofString "0042") 5 = .ok [⟨.number 42, 5⟩] ∧
    tokens (Text.ofString "18446744073709551615") 0 = .ok [⟨.number 18446744073709551615, 0⟩] ∧
    tokens (Text.ofString "7 18446744073709551616") 0 =
      .error ⟨.outOfRange (Text.ofString "18446744073709551616"), 2⟩ :=
  ⟨by cbv, by cbv, by cbv⟩

/-! ### Streams -/

/-- The kinds of tokens that a text can spell. -/
def IsSpelled : Kind → Prop
  | .constant name    => isConstant name = true
  | .identifier name  => isIdentifier name = true
  | .operator code    => ∃ b, isOperator b = true ∧ code = UInt8.toNat b
  | .eof | .unknown _ => False
  | _                 => True

lemma isSpelled_of_spells {p rest : Text} {kind : Kind} (h : Spells p (some kind) rest) :
    IsSpelled kind := by
  have key : ∀ w ∈ Kind.keywords, ∀ k, w.2 = k → IsSpelled k := by
    simp [Kind.keywords, IsSpelled]
  cases h with
  | keyword hp => exact key _ hp _ rfl
  | constant hp => exact hp
  | identifier hp => exact hp
  | punctuation _ hb =>
    simp only [punctuation, List.mem_cons, Prod.mk.injEq, List.not_mem_nil, or_false] at hb
    rcases hb with ⟨-, rfl⟩ | ⟨-, rfl⟩ | ⟨-, rfl⟩ | ⟨-, rfl⟩ | ⟨-, rfl⟩ <;> trivial
  | operator hb => exact ⟨_, hb, rfl⟩
  | _ => trivial

/-- A list of tokens that texts can spell. -/
def Spelled (ts : List Token) : Prop := ∀ t ∈ ts, IsSpelled t.kind

lemma Spelled.of_suffix {ts us : List Token} (h : Spelled ts) (hs : us <:+ ts) : Spelled us :=
  fun t ht => h t (hs.subset ht)

lemma Spelled.of_cons {t : Token} {ts : List Token} (h : Spelled (t :: ts)) :
    IsSpelled t.kind ∧ Spelled ts :=
  List.forall_mem_cons.1 h

lemma Spelled.append {ts us : List Token} (h : Spelled ts) (h' : Spelled us) : Spelled (ts ++ us) :=
  fun t ht => (List.mem_append.1 ht).elim (h t) (h' t)

lemma spelled_of_cut {t rest : Text} {ls : List Lexeme} (h : Cut t ls rest) (pos : Int) :
    Spelled (place pos ls) := by
  induction h generalizing pos with
  | nil => simp [Spelled, place]
  | @cons p _ _ kind _ hp _ ih =>
    cases kind with
    | none => exact ih _
    | some kind => exact List.forall_mem_cons.2 ⟨isSpelled_of_spells hp, ih _⟩

/-- The tokens of several texts, each with the offset of its first byte, one after the other. -/
def stream : List (Text × Int) → Except LexError (List Token)
  | []                   => .ok []
  | (text, pos) :: files => do
    let ts ← tokens text pos
    let us ← stream files
    return ts ++ us

lemma spelled_of_stream {files : List (Text × Int)} {ts : List Token}
    (h : stream files = .ok ts) : Spelled ts := by
  induction files generalizing ts with
  | nil =>
    obtain rfl := Except.ok.inj h
    simp [Spelled]
  | cons file files ih =>
    obtain ⟨text, pos⟩ := file
    simp only [stream] at h
    cases ht : tokens text pos with
    | error e => rw [ht] at h; cases h
    | ok us =>
      cases hs : stream files with
      | error e => rw [ht, hs] at h; cases h
      | ok vs =>
        rw [ht, hs] at h
        obtain rfl := Except.ok.inj h
        obtain ⟨ls, hc, rfl⟩ := exists_cut_of_tokens ht
        exact (spelled_of_cut hc pos).append (ih hs)

end Frontend.Lexer
