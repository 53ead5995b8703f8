import Frontend.Proofs.Command.Outcomes
import Frontend.Proofs.Source.Membership
import Frontend.Proofs.Tree.Shape

/-!
# Settings over the built-in ones

A config file gives an ending and some precedences, which are a finite map from texts to numbers.
They are taken over the built-in ones, and what comes out is checked. The entries of a configuration
stand in the order of their operators, each operator once, so a configuration does not depend on the
order in which its entries were put in: entries in order are determined by what is looked up in them
(`Ordered.ext`).

`load_exact` says which settings are taken, which precedences they give, and what is said about
those that are refused.
-/

namespace Frontend

/-- The precedence that settings give to an operator. What is given last counts. -/
def Settings.level? (s : Settings) (op : Text) : Option Int64 :=
  (s.precedence.reverse.lookup op).map Int64.ofInt

/-- A number that fits is taken as it is. -/
lemma Settings.toInt_level? {s : Settings} {op : Text} {n : Int}
    (h : s.precedence.reverse.lookup op = some n) (hn : Text.fitsInt64 n = true) :
    (s.level? op).map Int64.toInt = some n := by
  obtain ⟨hlow, hhigh⟩ := Bool.and_eq_true_iff.1 hn
  rw [level?, h, Option.map_some, Option.map_some,
    Int64.toInt_ofInt_of_le (of_decide_eq_true hlow) (of_decide_eq_true hhigh)]

namespace Config

/-! ### Entries in order -/

section Entries

variable {es es' : List (Text × Int64)} {op : Text} {level : Int64}

/-- Entries stand in the order of their operators, each operator once. -/
def Ordered (es : List (Text × Int64)) : Prop := es.Pairwise fun e e' => e.1 < e'.1

lemma lookup_cons_ite {α : Type} (op o : Text) (x : α) (ps : List (Text × α)) :
    ((o, x) :: ps).lookup op = if op = o then some x else ps.lookup op := by
  by_cases h : op = o
  · rw [if_pos h, h, List.lookup_cons_self]
  · rw [if_neg h, List.lookup_cons, beq_eq_false_iff_ne.2 h]

lemma lookup_setEntry (op op' : Text) (level : Int64) (es : List (Text × Int64)) :
    (setEntry op level es).lookup op' = if op' = op then some level else es.lookup op' := by
  fun_induction setEntry op level es with
  | case1 => exact lookup_cons_ite op' op level []
  | case2 l es => grind [lookup_cons_ite]
  | case3 => rw [lookup_cons_ite]
  | case4 o l es hne hlt ih => grind [lookup_cons_ite]

lemma mem_setEntry {e : Text × Int64} (h : e ∈ setEntry op level es) :
    e = (op, level) ∨ e ∈ es := by
  fun_induction setEntry op level es with
  | case1 => exact .inl (List.mem_singleton.1 h)
  | case2 => exact (List.mem_cons.1 h).imp_right (List.mem_cons_of_mem _)
  | case3 => exact List.mem_cons.1 h
  | case4 o l es _ _ ih =>
    rcases List.mem_cons.1 h with rfl | h
    · exact .inr List.mem_cons_self
    · exact (ih h).imp_right (List.mem_cons_of_mem _)

lemma Ordered.setEntry (h : Ordered es) (op : Text) (level : Int64) :
    Ordered (setEntry op level es) := by
  unfold Ordered at h
  fun_induction Config.setEntry op level es with
  | case1 => exact List.pairwise_singleton _ _
  | case2 => exact List.pairwise_cons.2 (List.pairwise_cons.1 h)
  | case3 o l es _ hlt =>
    refine List.pairwise_cons.2 ⟨List.forall_mem_cons.2 ⟨hlt, fun e he => ?_⟩, h⟩
    exact List.lt_trans hlt ((List.pairwise_cons.1 h).1 e he)
  | case4 o l es hne hlt ih =>
    obtain ⟨hhead, htail⟩ := List.pairwise_cons.1 h
    refine List.pairwise_cons.2 ⟨fun e he => ?_, ih htail⟩
    rcases mem_setEntry he with rfl | he
    · exact Std.lt_of_le_of_ne hlt hne
    · exact hhead e he

lemma Ordered.nodup (h : Ordered es) : (es.map Prod.fst).Nodup :=
  List.pairwise_map.2 (h.imp fun {e e'} hlt (heq : e.1 = e'.1) => List.lt_irrefl _ (heq ▸ hlt))

/-- What is looked up in a list where no key is repeated is what is in it. -/
lemma lookup_eq_some_iff {κ α : Type} [BEq κ] [LawfulBEq κ] {ps : List (κ × α)}
    (h : (ps.map Prod.fst).Nodup) {key : κ} {x : α} :
    ps.lookup key = some x ↔ (key, x) ∈ ps := by
  constructor
  · intro hl
    obtain ⟨before, after, rfl, -⟩ := List.lookup_eq_some_iff.1 hl
    simp
  · intro hm
    obtain ⟨before, after, rfl⟩ := List.append_of_mem hm
    refine List.lookup_eq_some_iff.2 ⟨before, after, rfl, fun p hp => ?_⟩
    rw [List.map_append, List.map_cons, List.nodup_middle, List.nodup_cons] at h
    rw [bne_iff_ne]
    rintro rfl
    exact h.1 (List.mem_append_left _ (List.mem_map.2 ⟨p, hp, rfl⟩))

/-- Looking up does not depend on the order of a list where no key is repeated. -/
lemma lookup_perm {κ α : Type} [BEq κ] [LawfulBEq κ] {ps qs : List (κ × α)} (hp : ps.Perm qs)
    (h : (qs.map Prod.fst).Nodup) (key : κ) : ps.lookup key = qs.lookup key := by
  have h' : (ps.map Prod.fst).Nodup := (hp.map Prod.fst).nodup_iff.2 h
  apply Option.ext
  intro x
  rw [lookup_eq_some_iff h', lookup_eq_some_iff h, hp.mem_iff]

/-- Entries in order are determined by what is looked up in them. -/
lemma Ordered.ext (h : Ordered es) (h' : Ordered es') (hl : ∀ op, es.lookup op = es'.lookup op) :
    es = es' := by
  have hperm : es.Perm es' := by
    rw [List.perm_ext_iff_of_nodup (List.Nodup.of_map _ h.nodup) (List.Nodup.of_map _ h'.nodup)]
    rintro ⟨op, level⟩
    rw [← lookup_eq_some_iff h.nodup, ← lookup_eq_some_iff h'.nodup, hl]
  refine hperm.eq_of_pairwise (fun e e' _ _ hlt hgt => ?_) h h'
  exact absurd (List.lt_trans hlt hgt) (List.lt_irrefl _)

/-! ### Putting in many entries -/

section Fold

variable {α : Type} {f : α → Int64} {base : List (Text × Int64)} {ps qs : List (Text × α)}

/-- Entries put in one after the other. -/
def setAll (f : α → Int64) (base : List (Text × Int64)) (ps : List (Text × α)) :
    List (Text × Int64) :=
  ps.foldl (fun es p => setEntry p.1 (f p.2) es) base

lemma ordered_setAll (h : Ordered base) (ps : List (Text × α)) : Ordered (setAll f base ps) := by
  induction ps generalizing base with
  | nil => exact h
  | cons p ps ih => exact ih (h.setEntry p.1 (f p.2))

/-- What was put in last under an operator is found, else what was there before. -/
lemma lookup_setAll (f : α → Int64) (base : List (Text × Int64)) (ps : List (Text × α))
    (op : Text) :
    (setAll f base ps).lookup op = ((ps.reverse.lookup op).map f).or (base.lookup op) := by
  induction ps generalizing base with
  | nil => rfl
  | cons p ps ih =>
    obtain ⟨o, x⟩ := p
    rw [setAll, List.foldl_cons, ← setAll, ih, lookup_setEntry, List.reverse_cons,
      List.lookup_append]
    rw [lookup_cons_ite]
    cases ps.reverse.lookup op <;> by_cases ho : op = o <;> simp [ho]

/-- The order in which entries are put in does not matter if no operator is repeated. -/
lemma setAll_perm (h : Ordered base) (hp : ps.Perm qs) (hq : (qs.map Prod.fst).Nodup) :
    setAll f base ps = setAll f base qs := by
  refine (ordered_setAll h ps).ext (ordered_setAll h qs) fun op => ?_
  have hr : ps.reverse.Perm qs.reverse :=
    (List.reverse_perm ps).trans (hp.trans (List.reverse_perm qs).symm)
  have hq' : (qs.reverse.map Prod.fst).Nodup :=
    ((List.reverse_perm qs).map Prod.fst).nodup_iff.2 hq
  rw [lookup_setAll, lookup_setAll, lookup_perm hr hq']

end Fold

end Entries

/-! ### Operators and their precedences -/

/-- A text that is one operator character. -/
def IsOperator (op : Text) : Prop := ∃ b, op = [b] ∧ Lexer.isOperator b = true

/-- An operator with a precedence that is not negative. -/
def Admitted (op : Text) (level : Int64) : Prop := IsOperator op ∧ 0 ≤ level

/-- What is said of an entry that is refused. -/
inductive Refused (op : Text) (level : Int64) : Failure → Prop
  | notOperator (h : ¬IsOperator op) :
      Refused op level (.plain (Text.quote op ++ Text.ofString " is not an operator"))
  | negative (h : IsOperator op) (hl : level < 0) :
      Refused op level
        (.plain (Text.ofString "precedence of " ++ op ++ Text.ofString " is negative"))

section Operators

variable {es : List (Text × Int64)} {op : Text} {level : Int64}

lemma operatorCode_of_isOperator {b : UInt8} (hb : Lexer.isOperator b = true) :
    operatorCode [b] = .ok b.toNat := by
  rw [operatorCode, if_pos hb]

lemma operatorCode_of_not_isOperator (h : ¬IsOperator op) :
    operatorCode op = .error (.plain (Text.quote op ++ Text.ofString " is not an operator")) := by
  unfold operatorCode
  split
  case h_1 b =>
    rw [if_neg]
    exact fun hb => h ⟨b, rfl, hb⟩
  case h_2 => rfl

/-- The entries that pass the check. -/
lemma checkEntries_eq_none_iff : checkEntries es = none ↔ ∀ e ∈ es, Admitted e.1 e.2 := by
  induction es with
  | nil => simp [checkEntries]
  | cons e es ih =>
    obtain ⟨op, level⟩ := e
    rw [List.forall_mem_cons, ← ih, checkEntries]
    by_cases hop : IsOperator op
    · obtain ⟨b, rfl, hb⟩ := hop
      rw [operatorCode_of_isOperator hb]
      by_cases hl : level < 0
      · simp [hl, Admitted]
      · simp [hl, Admitted, IsOperator, hb, Int64.not_lt.1 hl]
    · rw [operatorCode_of_not_isOperator hop]
      simp [Admitted, hop]

/-- The error of the check is about the least entry that is refused. -/
lemma exists_refused {e : Failure} (ho : Ordered es) (h : checkEntries es = some e) :
    ∃ op level, (op, level) ∈ es ∧ Refused op level e ∧
      ∀ e' ∈ es, ¬Admitted e'.1 e'.2 → op ≤ e'.1 := by
  induction es with
  | nil => cases h
  | cons e₀ es ih =>
    obtain ⟨op, level⟩ := e₀
    obtain ⟨hlt, hes⟩ := List.pairwise_cons.1 ho
    -- entries are in order, so the first one that is refused is the least
    have hleast : ∀ e' ∈ (op, level) :: es, op ≤ e'.1 := by
      rintro e' (_ | ⟨_, he⟩)
      · exact List.le_refl _
      · exact List.le_of_lt (hlt e' he)
    rw [checkEntries] at h
    by_cases hop : IsOperator op
    · obtain ⟨b, rfl, hb⟩ := hop
      rw [operatorCode_of_isOperator hb] at h
      by_cases hl : level < 0
      · obtain rfl := Option.some.inj ((if_pos hl).symm.trans h)
        exact ⟨_, _, List.mem_cons_self, .negative ⟨b, rfl, hb⟩ hl, fun e' he _ => hleast e' he⟩
      · have h' : checkEntries es = some e := (if_neg hl).symm.trans h
        obtain ⟨op', level', hm, hr, hmin⟩ := ih hes h'
        refine ⟨op', level', List.mem_cons_of_mem _ hm, hr, ?_⟩
        rintro e' (_ | ⟨_, he⟩) hbad
        · exact absurd ⟨⟨b, rfl, hb⟩, Int64.not_lt.1 hl⟩ hbad
        · exact hmin e' he hbad
    · rw [operatorCode_of_not_isOperator hop] at h
      obtain rfl := Option.some.inj h
      exact ⟨_, _, List.mem_cons_self, .notOperator hop, fun e' he _ => hleast e' he⟩

/-- A code point is written as an operator character exactly if it is that character. -/
lemma ofCodePoint_eq_iff {b : UInt8} (hb : Lexer.isOperator b = true) (c : Int) :
    Text.ofCodePoint c = [b] ↔ c = b.toNat := by
  constructor
  · intro h
    unfold Text.ofCodePoint at h
    split_ifs at h with hc
    · have hlow : b.toNat < 0x80 := by
        refine forall_isOperator (p := fun b => b.toNat < 0x80) ?_ hb
        rw [Lexer.operators_eq]
        decide +kernel
      rcases Text.encodeScalar_cases hc.2 with ⟨a, ha, hac⟩ | ⟨-, hhigh⟩
      · rw [ha] at h
        obtain rfl := (List.cons.inj h).1
        omega
      · have := hhigh b (by rw [h]; exact List.mem_singleton_self b)
        omega
    · cases h
  · rintro rfl
    exact ofCodePoint_of_isOperator hb

/-- Entries that are all admitted give a table, in which an operator is found under its code
point. -/
lemma exists_tableOf (h : ∀ e ∈ es, Admitted e.1 e.2) : ∃ table, tableOf es = .ok table ∧
    ∀ c : Int, table.entries.lookup c = es.lookup (Text.ofCodePoint c) := by
  induction es with
  | nil => exact ⟨_, rfl, fun _ => rfl⟩
  | cons e es ih =>
    obtain ⟨op, level⟩ := e
    obtain ⟨⟨⟨b, rfl, hb⟩, -⟩, hes⟩ := List.forall_mem_cons.1 h
    obtain ⟨table, ht, hlookup⟩ := ih hes
    refine ⟨⟨(b.toNat, level) :: table.entries⟩, ?_, fun c => ?_⟩
    · rw [tableOf, operatorCode_of_isOperator hb, ht]
    · rw [List.lookup_cons, lookup_cons_ite, hlookup]
      by_cases hc : c = b.toNat
      · rw [if_pos ((ofCodePoint_eq_iff hb c).2 hc), beq_iff_eq.2 hc]
      · rw [if_neg ((ofCodePoint_eq_iff hb c).not.2 hc), beq_eq_false_iff_ne.2 hc]

end Operators

/-! ### The built-in entries -/

lemma builtin_precedence :
    builtin.precedence = [([0x2A], 40), ([0x2B], 20), ([0x2D], 20), ([0x3C], 10)] := by
  decide +kernel

lemma ordered_builtin : Ordered builtin.precedence := by
  rw [Ordered, builtin_precedence]
  decide +kernel

lemma admitted_builtin : ∀ e ∈ builtin.precedence, Admitted e.1 e.2 := by
  have hop {b : UInt8} (hb : b ∈ Lexer.operators) : IsOperator [b] :=
    ⟨b, rfl, by simpa [Lexer.isOperator] using hb⟩
  rw [Lexer.operators_eq] at hop
  rw [builtin_precedence]
  simp only [List.forall_mem_cons, List.not_mem_nil, false_imp_iff, implies_true, and_true]
  exact ⟨⟨hop (by simp), by decide⟩, ⟨hop (by simp), by decide⟩, ⟨hop (by simp), by decide⟩,
    ⟨hop (by simp), by decide⟩⟩

lemma lookup_builtin (c : Int) :
    builtin.precedence.lookup (Text.ofCodePoint c) = Precedence.builtin.entries.lookup c := by
  obtain ⟨table, ht, hlookup⟩ := exists_tableOf admitted_builtin
  obtain rfl : table = ⟨[(0x2A, 40), (0x2B, 20), (0x2D, 20), (0x3C, 10)]⟩ := by
    rw [builtin_precedence] at ht
    exact (Except.ok.inj (ht.symm.trans (by decide +kernel)))
  rw [← hlookup]
  exact lookup_perm (by decide) (by decide) c

/-- The built-in entries may be put in in any order. -/
lemma foldl_builtin {es : List (Int × Int64)} (h : es.Perm Precedence.builtin.entries) :
    es.foldl (fun es e => setEntry (Text.ofCodePoint e.1) e.2 es) [] = builtin.precedence := by
  have hfold (es : List (Int × Int64)) :
      es.foldl (fun es e => setEntry (Text.ofCodePoint e.1) e.2 es) [] =
        setAll id [] (es.map fun e => (Text.ofCodePoint e.1, e.2)) := by
    rw [setAll, List.foldl_map]
    rfl
  rw [hfold, setAll_perm .nil (h.map _) (by decide +kernel), ← hfold]
  rfl

/-! ### Settings -/

/-- The ending of source files is left out, or has a dot and more. -/
def ValidExt (ext : Text) : Prop := ext = [] ∨ 2 ≤ ext.length ∧ ext.head? = some 0x2E

/-- The configuration with settings taken over the built-in one, if it passes the check. -/
def checked (path : Text) (s : Settings) : Except Failure Config :=
  match (ofSettings path s).check with
  | some e => .error (.within path e)
  | none   => .ok (ofSettings path s)

section Settings

variable {s : Settings} {path op : Text} {level : Int64} {c : Config} {e : Failure}

lemma load_eq_checked {t : FileTree} {content : Text} (hr : t.read path = .ok content)
    (hs : parseFile path content = .ok s) : load t path = checked path s := by
  cases hc : (ofSettings path s).check <;> simp only [load, hr, hs, checked, hc]

lemma ordered_ofSettings (path : Text) (s : Settings) : Ordered (ofSettings path s).precedence :=
  ordered_setAll ordered_builtin s.precedence

lemma lookup_ofSettings (path : Text) (s : Settings) (op : Text) :
    (ofSettings path s).precedence.lookup op = (s.level? op).or (builtin.precedence.lookup op) :=
  lookup_setAll Int64.ofInt builtin.precedence s.precedence op

/-- What settings give to an operator is an entry. -/
lemma mem_of_level? (path : Text) (h : s.level? op = some level) :
    (op, level) ∈ (ofSettings path s).precedence := by
  rw [← lookup_eq_some_iff (ordered_ofSettings path s).nodup, lookup_ofSettings, h, Option.some_or]

/-- An entry that is refused comes from the settings. -/
lemma level?_of_mem (h : (op, level) ∈ (ofSettings path s).precedence)
    (hbad : ¬Admitted op level) : s.level? op = some level := by
  rw [← lookup_eq_some_iff (ordered_ofSettings path s).nodup, lookup_ofSettings,
    Option.or_eq_some_iff] at h
  rcases h with h | ⟨-, h⟩
  · exact h
  · rw [lookup_eq_some_iff ordered_builtin.nodup] at h
    exact absurd (admitted_builtin _ h) hbad

lemma forall_admitted_iff (path : Text) : (∀ e ∈ (ofSettings path s).precedence, Admitted e.1 e.2) ↔
    ∀ op level, s.level? op = some level → Admitted op level := by
  constructor
  · exact fun h op level hl => h _ (mem_of_level? path hl)
  · rintro h ⟨op, level⟩ hm
    by_contra hbad
    exact hbad (h op level (level?_of_mem hm hbad))

/-- The ending that is checked is bad only if the one that is given is. -/
lemma validExt_iff (path : Text) : ValidExt s.ext ↔
    ¬((ofSettings path s).ext.length < 2 ∨ (ofSettings path s).ext.head? ≠ some 0x2E) := by
  by_cases h : s.ext = []
  · simp only [ValidExt, ofSettings, h, true_or, if_true, true_iff]
    decide +kernel
  · simp only [ValidExt, ofSettings, h, false_or, if_false]
    rw [not_or, not_lt, not_not]

lemma checked_eq_ok_iff : checked path s = .ok c ↔ (ofSettings path s).check = none ∧
    c = ofSettings path s := by
  unfold checked
  cases (ofSettings path s).check <;> simp [eq_comm]

lemma check_eq_none_iff (path : Text) : (ofSettings path s).check = none ↔
    ValidExt s.ext ∧ ∀ op level, s.level? op = some level → Admitted op level := by
  rw [validExt_iff path, ← forall_admitted_iff path, ← checkEntries_eq_none_iff, check]
  split_ifs with h
  · exact iff_of_false (by simp) fun h' => h'.1 h
  · exact (and_iff_right h).symm

/-- A configuration is made of settings over the built-in ones, and gives its precedences. -/
structure Merged (path : Text) (s : Settings) (c : Config) : Prop where
  path : c.path = path
  ext : c.ext = if s.ext = [] then Text.ofString ".nla" else s.ext
  table : ∃ table, c.table = .ok table ∧ ∀ op : Int,
    table.of op = ((s.level? (Text.ofCodePoint op)).or
      (Precedence.builtin.entries.lookup op)).elim Precedence.unlisted Int64.toInt ∧
    0 ≤ table.of op ∧
    ∀ n, s.precedence.reverse.lookup (Text.ofCodePoint op) = some n → Text.fitsInt64 n = true →
      table.of op = n

/-- What is said of settings that are refused. -/
inductive Complaint (s : Settings) : Failure → Prop
  | ext (h : ¬ValidExt s.ext) :
      Complaint s (.plain (Text.ofString "bad source extension " ++ Text.quote s.ext))
  /-- The entry that is refused is the least one. -/
  | entry {op : Text} {level : Int64} {e : Failure} (hext : ValidExt s.ext)
      (hl : s.level? op = some level) (hr : Refused op level e)
      (least : ∀ op' level', s.level? op' = some level' → ¬Admitted op' level' → op ≤ op') :
      Complaint s e

lemma merged_of_checked (h : checked path s = .ok c) : Merged path s c := by
  obtain ⟨hc, rfl⟩ := checked_eq_ok_iff.1 h
  have hall : ∀ e ∈ (ofSettings path s).precedence, Admitted e.1 e.2 :=
    (forall_admitted_iff path).2 ((check_eq_none_iff path).1 hc).2
  obtain ⟨table, ht, hlookup⟩ := exists_tableOf hall
  refine ⟨rfl, rfl, table, ht, fun op => ?_⟩
  have hop := hlookup op
  have hmerged := lookup_ofSettings path s (Text.ofCodePoint op)
  rw [lookup_builtin] at hmerged
  have hof : table.of op = (table.entries.lookup op).elim Precedence.unlisted Int64.toInt := by
    rw [Precedence.of]
    cases table.entries.lookup op <;> rfl
  refine ⟨by rw [hof, hop, hmerged], ?_, fun n hn hfits => ?_⟩
  · rw [hof]
    cases hl : table.entries.lookup op with
    | none => decide
    | some level =>
      rw [hl, eq_comm, lookup_eq_some_iff (ordered_ofSettings path s).nodup] at hop
      exact Int64.le_iff_toInt_le.1 (hall _ hop).2
  · obtain ⟨level, hlevel, rfl⟩ := Option.map_eq_some_iff.1 (Settings.toInt_level? hn hfits)
    rw [hof, hop, hmerged, hlevel]
    rfl

lemma complaint_of_checked (h : checked path s = .error e) :
    ∃ e', e = .within path e' ∧ Complaint s e' := by
  rw [checked] at h
  cases hc : (ofSettings path s).check with
  | none =>
    rw [hc] at h
    cases h
  | some e' =>
    rw [hc] at h
    refine ⟨e', (Except.error.inj h).symm, ?_⟩
    by_cases hext : ValidExt s.ext
    · rw [check, if_neg ((validExt_iff path).1 hext)] at hc
      obtain ⟨op, level, hm, hr, hleast⟩ := exists_refused (ordered_ofSettings path s) hc
      have hbad : ¬Admitted op level := by
        rintro ⟨hop, hl⟩
        cases hr with
        | notOperator hop' => exact hop' hop
        | negative _ hl' => exact Int64.not_lt.2 hl hl'
      exact .entry hext (level?_of_mem hm hbad) hr fun op' level' hl hbad' =>
        hleast _ (mem_of_level? path hl) hbad'
    · have hfailed := not_not.1 ((validExt_iff path).not.1 hext)
      have hgiven : (ofSettings path s).ext = s.ext :=
        if_neg fun hempty => hext (.inl hempty)
      rw [check, if_pos hfailed, hgiven] at hc
      obtain rfl := Option.some.inj hc
      exact .ext hext

/-- Settings may come in any order. -/
lemma checked_perm {ps : List (Text × Int)} (hp : ps.Perm s.precedence)
    (hs : (s.precedence.map Prod.fst).Nodup) : checked path { s with precedence := ps } =
      checked path s := by
  have h : ofSettings path { s with precedence := ps } = ofSettings path s :=
    congrArg (Config.mk _ · _) (setAll_perm ordered_builtin hp hs)
  rw [checked, checked, h]

/-- The operators of a configuration are sorted already. -/
lemma sorted_perm {ops : List Text}
    (h : ops.Perm ((ofSettings path s).precedence.map Prod.fst)) :
    Text.sorted ops = (ofSettings path s).precedence.map Prod.fst := by
  have ho := ordered_ofSettings path s
  have hsorted : (Text.sorted ops).Pairwise (· < ·) :=
    Text.pairwise_lt_sorted (h.nodup_iff.2 ho.nodup)
  refine ((List.mergeSort_perm _ _).trans h).eq_of_pairwise (fun x y _ _ hlt hgt => ?_) hsorted
    (List.pairwise_map.2 ho)
  exact absurd (List.lt_trans hlt hgt) (List.lt_irrefl _)

/-! ### Configurations that are used -/

/-- A configuration that is loaded from a file comes from settings that pass the check. -/
lemma exists_checked {t : FileTree} (h : load t path = .ok c) : ∃ s, checked path s = .ok c := by
  cases hr : t.read path with
  | error e =>
    rw [load, hr] at h
    cases h
  | ok content =>
    cases hs : parseFile path content with
    | error e =>
      simp only [load, hr, hs] at h
      cases h
    | ok s => exact ⟨s, (load_eq_checked hr hs).symm.trans h⟩

lemma exists_table_of_load {t : FileTree} (h : load t path = .ok c) :
    ∃ table, c.table = .ok table := by
  obtain ⟨s, hs⟩ := exists_checked h
  obtain ⟨table, ht, -⟩ := (merged_of_checked hs).table
  exact ⟨table, ht⟩

lemma exists_table_of_loadDir {t : FileTree} {dir : Text} (h : loadDir t dir = .ok c) :
    ∃ table, c.table = .ok table := by
  rw [loadDir] at h
  split at h
  · cases h
  · obtain rfl := Except.ok.inj h
    obtain ⟨table, ht, -⟩ := exists_tableOf admitted_builtin
    exact ⟨table, ht⟩
  · exact exists_table_of_load h

/-- Every configuration that a command uses gives a table of precedences. -/
lemma exists_table_of_configFor {o : Options} {t : FileTree} (h : o.configFor t path = .ok c) :
    ∃ table, c.table = .ok table := by
  rw [Options.configFor] at h
  split at h
  · exact exists_table_of_load h
  · split at h <;> exact exists_table_of_loadDir h

/-- Loading a project does not fail for want of a table of precedences. -/
lemma load_ne_bad_config {o : Options} {t : FileTree} {console : Console}
    (h : ((Project.load o t path).runOn console).1 = .error e) (e' : Failure) :
    e ≠ .within (Text.ofString "bad config") e' := by
  rintro rfl
  rw [Project.load] at h
  rcases Action.bind_eq_error h with h | ⟨config, hc, h⟩
  · obtain ⟨_, -, he⟩ := Action.ofExceptWithin_eq_error h
    exact absurd (Failure.within.inj he).1 (by decide +kernel)
  obtain ⟨table, ht⟩ := exists_table_of_configFor (Action.ofExceptWithin_eq_ok.1 hc)
  rcases Action.bind_eq_error h with h | ⟨_, -, h⟩
  · cases h.symm.trans (Action.finishes_note _ _ _).1
  rcases Action.bind_eq_error h with h | ⟨_, -, h⟩
  · obtain ⟨e₁, he, -⟩ := Action.ofExceptWithin_eq_error h
    cases ht.symm.trans he
  rcases Action.bind_eq_error h with h | ⟨_, -, h⟩
  · obtain ⟨_, -, he⟩ := Action.ofExceptWithin_eq_error h
    exact absurd (Failure.within.inj he).1 (by decide +kernel)
  rcases Action.bind_eq_error h with h | ⟨_, -, h⟩
  · cases h.symm.trans (Action.finishes_note _ _ _).1
  · cases h

end Settings

/-- Loading a config file takes its settings over the built-in ones and checks the outcome. Every
settings can be told to pass or not from the ending and from what each operator is given; what
passes gives the precedences that were asked for, and of what does not pass the ending is
complained about first and then the least bad entry. No order of entries matters. -/
theorem load_exact (path : Text) (s : Settings) :
    (∀ t content, FileTree.read t path = .ok content → parseFile path content = .ok s →
      load t path = checked path s) ∧
    ((∃ c, checked path s = .ok c) ↔
      ValidExt s.ext ∧ ∀ op level, s.level? op = some level → Admitted op level) ∧
    (∀ c, checked path s = .ok c → Merged path s c) ∧
    (∀ e, checked path s = .error e → ∃ e', e = .within path e' ∧ Complaint s e') ∧
    (∀ ps, ps.Perm s.precedence → (s.precedence.map Prod.fst).Nodup →
      checked path { s with precedence := ps } = checked path s) ∧
    (∀ es : List (Int × Int64), es.Perm Precedence.builtin.entries →
      es.foldl (fun es e => setEntry (Text.ofCodePoint e.1) e.2 es) [] = builtin.precedence) ∧
    (∀ ops, ops.Perm ((ofSettings path s).precedence.map Prod.fst) →
      Text.sorted ops = (ofSettings path s).precedence.map Prod.fst) ∧
    ∀ o t source console e, ((Project.load o t source).runOn console).1 = .error e →
      ∀ e', e ≠ .within (Text.ofString "bad config") e' := by
  refine ⟨fun _ _ hr hs => load_eq_checked hr hs, ?_, fun _ => merged_of_checked,
    fun _ => complaint_of_checked, fun _ => checked_perm, fun _ => foldl_builtin,
    fun _ => sorted_perm, fun _ _ _ _ _ => load_ne_bad_config⟩
  rw [← check_eq_none_iff path]
  constructor
  · rintro ⟨c, hc⟩
    exact (checked_eq_ok_iff.1 hc).1
  · exact fun hc => ⟨_, checked_eq_ok_iff.2 ⟨hc, rfl⟩⟩

/-- A file gives `-` a precedence of its own, and nothing else. -/
theorem load_exact_minus :
    ∃ c table, load ⟨.directory [(Text.ofString "nilla.toml", .file (Text.ofString
        "[precedence]\n\"-\"=9\n"))], Path.root⟩ (Text.ofString "nilla.toml") = .ok c ∧
      c.ext = Text.ofString ".nla" ∧ c.table = .ok table ∧ table.of 0x2D = 9 ∧
      table.of 0x2A = 40 ∧ table.of 0x26 = 100 := by
  have hs : parseFile (Text.ofString "nilla.toml") (Text.ofString "[precedence]\n\"-\"=9\n") =
      .ok ⟨[], [([0x2D], 9)]⟩ := by cbv
  obtain ⟨hload, -, hmerged, -⟩ := load_exact (Text.ofString "nilla.toml") ⟨[], [([0x2D], 9)]⟩
  have hc : checked (Text.ofString "nilla.toml") ⟨[], [([0x2D], 9)]⟩ =
      .ok ⟨Text.ofString ".nla", [([0x2A], 40), ([0x2B], 20), ([0x2D], 9), ([0x3C], 10)],
        Text.ofString "nilla.toml"⟩ := by cbv
  obtain ⟨table, ht, hof⟩ := (hmerged _ hc).table
  refine ⟨_, table, (hload _ _ (by cbv) hs).trans hc, (hmerged _ hc).ext, ht, ?_, ?_, ?_⟩
  · exact (hof 0x2D).1.trans (by cbv)
  · exact (hof 0x2A).1.trans (by cbv)
  · exact (hof 0x26).1.trans (by cbv)

end Config

end Frontend
