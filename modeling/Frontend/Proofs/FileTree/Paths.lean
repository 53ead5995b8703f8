import Frontend.Path
import Mathlib

/-!
# Clean paths

A clean absolute path is made of names: elements that are not empty, are not one of the two dots,
and hold no separator. `Path.ofNames` puts such a path together, and `Path.cleanElements` takes it
apart again. Cleaning a second time therefore changes nothing, and a clean absolute path names the
same thing from every working directory.
-/

namespace Frontend

/-! ### Parts of a text -/

namespace Text

variable {b : UInt8} {t u : Text} {ts : List Text}

lemma split_cons_self (b : UInt8) (t : Text) : split b (b :: t) = [] :: split b t := by
  rw [split, if_pos rfl]

lemma exists_cons_of_split (b : UInt8) (t : Text) : ∃ part parts, split b t = part :: parts := by
  cases t with
  | nil => exact ⟨[], [], rfl⟩
  | cons c t =>
    rw [split]
    split_ifs
    · exact ⟨_, _, rfl⟩
    · split <;> exact ⟨_, _, rfl⟩

lemma split_of_not_mem (h : b ∉ t) : split b t = [t] := by
  induction t with
  | nil => rfl
  | cons c t ih =>
    rw [List.mem_cons, not_or] at h
    rw [split, if_neg (Ne.symm h.1), ih h.2]

lemma split_append_cons (b : UInt8) (t u : Text) :
    split b (t ++ b :: u) = split b t ++ split b u := by
  induction t with
  | nil => exact split_cons_self b u
  | cons c t ih =>
    rw [List.cons_append, split, split, ih]
    by_cases hc : c = b
    · rw [if_pos hc, if_pos hc, List.cons_append]
    · obtain ⟨part, parts, hs⟩ := exists_cons_of_split b t
      rw [if_neg hc, if_neg hc, hs]
      rfl

lemma not_mem_of_mem_split : ∀ part ∈ split b t, b ∉ part := by
  induction t with
  | nil => simp [split]
  | cons c t ih =>
    rw [split]
    by_cases hc : c = b
    · rw [if_pos hc]
      exact List.forall_mem_cons.2 ⟨List.not_mem_nil, ih⟩
    · obtain ⟨part, parts, hs⟩ := exists_cons_of_split b t
      rw [hs, List.forall_mem_cons] at ih
      rw [if_neg hc, hs]
      refine List.forall_mem_cons.2 ⟨?_, ih.2⟩
      rw [List.mem_cons, not_or]
      exact ⟨Ne.symm hc, ih.1⟩

lemma join_concat (separator : Text) (hts : ts ≠ []) (t : Text) :
    join separator (ts ++ [t]) = join separator ts ++ separator ++ t := by
  induction ts with
  | nil => exact absurd rfl hts
  | cons u us ih =>
    cases us with
    | nil => rfl
    | cons v vs =>
      rw [List.cons_append, List.cons_append, join, ← List.cons_append, ih (by simp), join]
      simp only [List.append_assoc]

lemma split_join (h : ∀ t ∈ ts, b ∉ t) (hts : ts ≠ []) : split b (join [b] ts) = ts := by
  induction ts with
  | nil => exact absurd rfl hts
  | cons t us ih =>
    rw [List.forall_mem_cons] at h
    cases us with
    | nil => exact split_of_not_mem h.1
    | cons v vs =>
      rw [join, List.append_assoc, List.singleton_append, split_append_cons, split_of_not_mem h.1,
        ih h.2 (by simp)]
      rfl

lemma mem_of_mem_split : ∀ part ∈ split b t, ∀ c ∈ part, c ∈ t := by
  induction t with
  | nil => simp [split]
  | cons d t ih =>
    rw [split]
    by_cases hd : d = b
    · rw [if_pos hd]
      refine List.forall_mem_cons.2 ⟨by simp, fun part hp c hc => ?_⟩
      exact List.mem_cons_of_mem d (ih part hp c hc)
    · obtain ⟨part, parts, hs⟩ := exists_cons_of_split b t
      rw [hs, List.forall_mem_cons] at ih
      rw [if_neg hd, hs]
      refine List.forall_mem_cons.2 ⟨fun c hc => ?_, fun part hp c hc => ?_⟩
      · exact (List.mem_cons.1 hc).elim (· ▸ List.mem_cons_self)
          fun hc => List.mem_cons_of_mem d (ih.1 c hc)
      · exact List.mem_cons_of_mem d (ih.2 part hp c hc)

lemma mem_join {separator : Text} (h : b ∈ join separator ts) :
    b ∈ separator ∨ ∃ t ∈ ts, b ∈ t := by
  fun_induction join separator ts with
  | case1 => cases h
  | case2 t => exact .inr ⟨t, List.mem_singleton_self t, h⟩
  | case3 t u us ih =>
    rw [List.append_assoc, List.mem_append, List.mem_append] at h
    rcases h with h | h | h
    · exact .inr ⟨t, List.mem_cons_self, h⟩
    · exact .inl h
    · refine (ih h).imp_right ?_
      rintro ⟨v, hv, hb⟩
      exact ⟨v, List.mem_cons_of_mem t hv, hb⟩

end Text

namespace Path

variable {p q u n : Text} {ns es stack : List Text} {absolute : Bool}

/-! ### Absolute paths -/

lemma exists_cons_of_isAbsolute (h : isAbsolute p = true) : ∃ q, p = slash :: q := by
  cases p with
  | nil => cases h
  | cons b q =>
    obtain rfl : b = slash := by simpa [isAbsolute] using h
    exact ⟨q, rfl⟩

lemma isAbsolute_append (hp : isAbsolute p = true) (q : Text) : isAbsolute (p ++ q) = true := by
  obtain ⟨r, rfl⟩ := exists_cons_of_isAbsolute hp
  rfl

lemma isAbsolute_clean (h : isAbsolute p = true) : isAbsolute (clean p) = true := by
  rw [clean, h]
  rfl

lemma isAbsolute_dir (h : isAbsolute p = true) : isAbsolute (dir p) = true := by
  obtain ⟨q, rfl⟩ := exists_cons_of_isAbsolute h
  apply isAbsolute_clean
  -- The separator at the start is the last one at the latest.
  have hkeep : ∀ r : Text, ∃ r', (r ++ [slash]).dropWhile (· != slash) = r' ++ [slash] := by
    intro r
    induction r with
    | nil => exact ⟨[], rfl⟩
    | cons b r ih =>
      obtain ⟨r', hr⟩ := ih
      by_cases hb : b = slash
      · exact ⟨b :: r, by simp [hb]⟩
      · exact ⟨r', by simpa [hb] using hr⟩
  obtain ⟨r, hr⟩ := hkeep q.reverse
  rw [throughSlash, List.reverse_cons, hr, List.reverse_append]
  rfl

lemma isAbsolute_join (h : isAbsolute p = true) (q : Text) : isAbsolute (join p q) = true := by
  obtain ⟨r, rfl⟩ := exists_cons_of_isAbsolute h
  cases q with
  | nil => exact isAbsolute_clean h
  | cons b q => exact isAbsolute_clean (p := slash :: (r ++ slash :: b :: q)) rfl

lemma isAbsolute_resolve (h : isAbsolute p = true) (q : Text) :
    isAbsolute (resolve p q) = true := by
  have hparent : isAbsolute (if isAbsolute (dir q) then dir q else join p (dir q)) = true := by
    by_cases hd : isAbsolute (dir q) = true
    · rwa [if_pos hd]
    · rw [if_neg hd]
      exact isAbsolute_join h _
  rw [resolve]
  by_cases hroot : q = root
  · rw [if_pos hroot]
    rfl
  by_cases hdot : q = dot
  · rwa [if_neg hroot, if_pos hdot]
  rw [if_neg hroot, if_neg hdot]
  generalize (if isAbsolute (dir q) then dir q else join p (dir q)) = parent at hparent ⊢
  simp only
  split_ifs
  · exact hparent
  · exact isAbsolute_dir hparent
  · exact isAbsolute_join hparent _

/-! ### Names -/

/-- An element of a path that stands for an entry of a directory. -/
structure IsName (n : Text) : Prop where
  ne_nil : n ≠ []
  ne_dot : n ≠ dot
  ne_dotDot : n ≠ dotDot
  slash_not_mem : slash ∉ n

/-- The absolute path with the given elements. -/
def ofNames (ns : List Text) : Text := slash :: Text.join root ns

lemma push_of_isName (h : IsName n) (absolute : Bool) (stack : List Text) :
    push absolute stack n = n :: stack := by
  rw [push.eq_def, if_neg (not_or.2 ⟨h.ne_nil, h.ne_dot⟩), if_neg h.ne_dotDot]

lemma foldl_push_of_isName (h : ∀ n ∈ ns, IsName n) (absolute : Bool) (stack : List Text) :
    ns.foldl (push absolute) stack = ns.reverse ++ stack := by
  induction ns generalizing stack with
  | nil => rfl
  | cons n ns ih =>
    rw [List.forall_mem_cons] at h
    rw [List.foldl_cons, push_of_isName h.1, ih h.2, List.reverse_cons, List.append_assoc]
    rfl

/-- What is on the stack was there before, or is an element that was put on it. -/
lemma mem_push {e : Text} (h : n ∈ push absolute stack e) :
    n ∈ stack ∨ n = e ∧ e ≠ [] ∧ e ≠ dot ∧
      (e = dotDot → absolute = true → dotDot ∈ stack) := by
  rw [push.eq_def] at h
  by_cases hskip : e = [] ∨ e = dot
  · rw [if_pos hskip] at h
    exact .inl h
  rw [if_neg hskip] at h
  rw [not_or] at hskip
  -- a step up is kept on top of others, or where a relative path starts
  by_cases hup : e = dotDot
  · rw [if_pos hup] at h
    subst hup
    cases stack with
    | nil =>
      cases absolute with
      | true => exact .inl h
      | false =>
        refine .inr ⟨List.mem_singleton.1 h, hskip.1, hskip.2, ?_⟩
        rintro - ⟨⟩
    | cons top rest =>
      dsimp only at h
      by_cases htop : top = dotDot
      · rw [if_pos htop] at h
        rcases List.mem_cons.1 h with rfl | h
        · exact .inl (htop ▸ List.mem_cons_self)
        · exact .inl h
      · rw [if_neg htop] at h
        exact .inl (List.mem_cons_of_mem top h)
  · rw [if_neg hup] at h
    rcases List.mem_cons.1 h with rfl | h
    · exact .inr ⟨rfl, hskip.1, hskip.2, fun he => absurd he hup⟩
    · exact .inl h

lemma mem_foldl_push (hs : ∀ n ∈ stack, n ≠ [] ∧ n ≠ dot ∧ (absolute = true → n ≠ dotDot) ∧
    slash ∉ n) (he : ∀ e ∈ es, slash ∉ e) :
    ∀ n ∈ es.foldl (push absolute) stack, n ≠ [] ∧ n ≠ dot ∧ (absolute = true → n ≠ dotDot) ∧
      slash ∉ n := by
  induction es generalizing stack with
  | nil => exact hs
  | cons e es ih =>
    rw [List.forall_mem_cons] at he
    refine ih ?_ he.2
    intro n hn
    rcases mem_push hn with hold | ⟨rfl, hnil, hdot, hup⟩
    · exact hs n hold
    · refine ⟨hnil, hdot, ?_, he.1⟩
      intro ha hdd
      exact (hs dotDot (hup hdd ha)).2.2.1 ha rfl

lemma mem_cleanElements (hn : n ∈ cleanElements p) :
    n ≠ [] ∧ n ≠ dot ∧ (isAbsolute p = true → n ≠ dotDot) ∧ slash ∉ n :=
  mem_foldl_push (by simp) (fun _ => Text.not_mem_of_mem_split _) n (List.mem_reverse.1 hn)

/-- The elements of a cleaned absolute path are names. -/
lemma isName_of_mem_cleanElements (hp : isAbsolute p = true) :
    ∀ n ∈ cleanElements p, IsName n := by
  intro n hn
  obtain ⟨hnil, hdot, hdd, hslash⟩ := mem_cleanElements hn
  exact ⟨hnil, hdot, hdd hp, hslash⟩

/-! ### Cleaning -/

lemma clean_of_isAbsolute (h : isAbsolute p = true) : clean p = ofNames (cleanElements p) := by
  rw [clean, h]
  rfl

lemma cleanElements_append (hu : isAbsolute u = true) (p : Text) :
    cleanElements (u ++ slash :: p) =
      ((elements p).foldl (push true) (cleanElements u).reverse).reverse := by
  rw [cleanElements, cleanElements, elements, Text.split_append_cons, List.foldl_append,
    isAbsolute_append hu, hu, List.reverse_reverse]
  rfl

lemma cleanElements_ofNames (h : ∀ n ∈ ns, IsName n) : cleanElements (ofNames ns) = ns := by
  have helements : (elements (ofNames ns)).foldl (push true) [] = ns.reverse := by
    rw [elements, ofNames, Text.split_cons_self, List.foldl_cons]
    by_cases hns : ns = []
    · subst hns
      rfl
    · rw [root, Text.split_join (fun n hn => (h n hn).slash_not_mem) hns, foldl_push_of_isName h]
      exact List.append_nil _
  rw [cleanElements, show isAbsolute (ofNames ns) = true from rfl, helements, List.reverse_reverse]

lemma clean_ofNames (h : ∀ n ∈ ns, IsName n) : clean (ofNames ns) = ofNames ns := by
  rw [clean_of_isAbsolute rfl, cleanElements_ofNames h]

/-- Cleaning does not make a path absolute. -/
lemma isAbsolute_of_clean (h : isAbsolute (clean p) = true) : isAbsolute p = true := by
  by_contra hp
  rw [Bool.not_eq_true] at hp
  rw [clean, hp] at h
  cases hes : cleanElements p with
  | nil =>
    rw [hes] at h
    cases h
  | cons e es =>
    obtain ⟨hnil, -, -, hslash⟩ := mem_cleanElements (p := p) (n := e) (by simp [hes])
    obtain ⟨b, e, rfl⟩ := List.exists_cons_of_ne_nil hnil
    rw [hes] at h
    have hb : b = slash := by
      cases es <;> simpa [Text.join, isAbsolute] using h
    exact hslash (hb ▸ List.mem_cons_self)

/-- A cleaned path that is absolute is clean. -/
lemma clean_clean (h : isAbsolute (clean p) = true) : clean (clean p) = clean p := by
  have hp := isAbsolute_of_clean h
  rw [clean_of_isAbsolute hp, clean_ofNames (isName_of_mem_cleanElements hp)]

/-! ### The last element -/

lemma reverse_append_slash (u n : Text) :
    (u ++ slash :: n).reverse = n.reverse ++ slash :: u.reverse := by
  rw [List.reverse_append, List.reverse_cons, List.append_assoc, List.singleton_append]

lemma forall_ne_slash (hn : slash ∉ n) : ∀ b ∈ n.reverse, (b != slash) = true := by
  intro b hb
  rw [bne_iff_ne]
  rintro rfl
  exact hn (List.mem_reverse.1 hb)

lemma throughSlash_append (u : Text) (hn : slash ∉ n) :
    throughSlash (u ++ slash :: n) = u ++ [slash] := by
  rw [throughSlash, reverse_append_slash, List.dropWhile_append_of_pos (forall_ne_slash hn)]
  simp

lemma afterSlash_append (u : Text) (hn : slash ∉ n) : afterSlash (u ++ slash :: n) = n := by
  rw [afterSlash, reverse_append_slash, List.takeWhile_append_of_pos (forall_ne_slash hn)]
  simp

lemma dropWhile_reverse_append (u : Text) (hnil : n ≠ []) (hn : slash ∉ n) :
    (u ++ n).reverse.dropWhile (· == slash) = (u ++ n).reverse := by
  rw [List.reverse_append]
  cases hr : n.reverse with
  | nil => exact absurd (List.reverse_eq_nil_iff.1 hr) hnil
  | cons b m =>
    have hb : b ≠ slash := bne_iff_ne.1 (forall_ne_slash hn b (by simp [hr]))
    simp [hb]

lemma base_append (u : Text) (hnil : n ≠ []) (hn : slash ∉ n) : base (u ++ slash :: n) = n := by
  have hkeep := dropWhile_reverse_append (u ++ [slash]) hnil hn
  rw [List.append_assoc, List.singleton_append] at hkeep
  rw [base, if_neg (by simp), hkeep, List.reverse_reverse]
  split
  · next h => simp at h
  · exact afterSlash_append u hn

/-- A path of names ends with the last of them, and is otherwise the path of the names before. -/
lemma ofNames_concat (ns : List Text) (n : Text) (h : ∀ m ∈ ns, IsName m) :
    ∃ u, ofNames (ns ++ [n]) = u ++ slash :: n ∧ clean (u ++ [slash]) = ofNames ns := by
  by_cases hns : ns = []
  · subst hns
    exact ⟨[], rfl, rfl⟩
  · refine ⟨ofNames ns, ?_, ?_⟩
    · rw [ofNames, Text.join_concat root hns, root, List.append_assoc]
      rfl
    · have hparent : cleanElements (ofNames ns ++ [slash]) = ns := by
        rw [cleanElements_append rfl, cleanElements_ofNames h]
        exact List.reverse_reverse ns
      rw [clean_of_isAbsolute rfl, hparent]

lemma join_ofNames (h : ∀ m ∈ ns, IsName m) (hn : IsName n) :
    join (ofNames ns) n = ofNames (ns ++ [n]) := by
  have helements : cleanElements (ofNames ns ++ slash :: n) = ns ++ [n] := by
    rw [cleanElements_append rfl, cleanElements_ofNames h, elements,
      Text.split_of_not_mem hn.slash_not_mem, List.foldl_cons, List.foldl_nil, push_of_isName hn,
      List.reverse_cons, List.reverse_reverse]
  obtain ⟨b, n, rfl⟩ := List.exists_cons_of_ne_nil hn.ne_nil
  rw [← helements, ← clean_of_isAbsolute rfl]
  rfl

/-- A clean absolute path is what it is from every working directory. -/
theorem resolve_of_clean (ha : isAbsolute q = true) (hq : clean q = q) (workingDir : Text) :
    resolve workingDir q = q := by
  have hnames := isName_of_mem_cleanElements ha
  rw [clean_of_isAbsolute ha] at hq
  generalize cleanElements q = es at hnames hq
  rcases List.eq_nil_or_concat' es with rfl | ⟨ns, n, rfl⟩
  · subst hq
    rfl
  · have hns : ∀ m ∈ ns, IsName m := fun m hm => hnames m (List.mem_append_left _ hm)
    have hn : IsName n := hnames n (by simp)
    obtain ⟨u, hu, hparent⟩ := ofNames_concat ns n hns
    have hdir : dir q = ofNames ns := by
      rw [dir, ← hq, hu, throughSlash_append u hn.slash_not_mem, hparent]
    have hbase : base q = n := by rw [← hq, hu, base_append u hn.ne_nil hn.slash_not_mem]
    have hroot : q ≠ root := by
      rintro rfl
      apply hn.slash_not_mem
      rw [← hbase]
      decide
    have hdot : q ≠ dot := by
      rintro rfl
      cases ha
    have habsolute : isAbsolute (ofNames ns) = true := rfl
    rw [resolve, if_neg hroot, if_neg hdot, hdir, if_pos habsolute, hbase]
    dsimp only
    rw [if_neg hn.ne_dot, if_neg hn.ne_dotDot, join_ofNames hns hn, hq]

end Path

end Frontend
