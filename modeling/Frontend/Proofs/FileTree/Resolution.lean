import Frontend.Proofs.FileTree.Paths

/-!
# Resolving paths

Seen from a working directory, cleaning leaves some names of a path (`Path.namesFrom`). They stay
the same when the path is cleaned, and resolving the path makes the absolute path of them.

A separator at the end is not cleaned away by `Path.resolve`, which takes the empty text behind it
for the last element. So paths that end with one are left out here, except the root.
-/

namespace Frontend

namespace Path

variable {p q n workingDir ending : Text} {ns es stack : List Text} {absolute : Bool}

/-- The path does not end with a separator, or is that of the root. -/
def EndsWithName (p : Text) : Prop := p = root ∨ p.getLast? ≠ some slash

/-- The names that are left of a path when it is cleaned, seen from a working directory. -/
def namesFrom (workingDir p : Text) : List Text :=
  cleanElements (if isAbsolute p then p else workingDir ++ slash :: p)

lemma namesFrom_of_isAbsolute (h : isAbsolute p = true) (workingDir : Text) :
    namesFrom workingDir p = cleanElements p := by
  rw [namesFrom, if_pos h]

lemma namesFrom_eq_foldl (hw : isAbsolute workingDir = true) (p : Text) :
    namesFrom workingDir p = ((elements p).foldl (push true)
      (if isAbsolute p then [] else (cleanElements workingDir).reverse)).reverse := by
  rw [namesFrom]
  by_cases hp : isAbsolute p = true
  · rw [if_pos hp, if_pos hp, cleanElements, hp]
  · rw [if_neg hp, if_neg hp, cleanElements_append hw]

lemma isName_of_mem_namesFrom (hw : isAbsolute workingDir = true) :
    ∀ n ∈ namesFrom workingDir p, IsName n := by
  rw [namesFrom]
  split_ifs with hp
  · exact isName_of_mem_cleanElements hp
  · obtain ⟨q, rfl⟩ := exists_cons_of_isAbsolute hw
    exact isName_of_mem_cleanElements rfl

/-! ### Cleaning and what is in front of the path -/

/-- What is on the stack is no element that is dropped. -/
def Kept (stack : List Text) : Prop := ∀ n ∈ stack, n ≠ [] ∧ n ≠ dot

lemma Kept.push (h : Kept stack) (absolute : Bool) (e : Text) : Kept (push absolute stack e) := by
  intro n hn
  rcases mem_push hn with hold | ⟨rfl, hnil, hdot, -⟩
  · exact h n hold
  · exact ⟨hnil, hdot⟩

/-- Putting the stack of a relative path on another stack is the same before and after a step. -/
lemma foldl_push_push (h : Kept stack) (e : Text) (below : List Text) :
    (push false stack e).reverse.foldl (push true) below =
      push true (stack.reverse.foldl (push true) below) e := by
  rw [push.eq_def false]
  by_cases hskip : e = [] ∨ e = dot
  · rw [if_pos hskip, push.eq_def, if_pos hskip]
  rw [if_neg hskip]
  by_cases hup : e = dotDot
  · rw [if_pos hup]
    subst hup
    cases stack with
    | nil => rfl
    | cons top rest =>
      dsimp only
      by_cases htop : top = dotDot
      · rw [if_pos htop, List.reverse_cons, List.foldl_append]
        rfl
      · obtain ⟨hnil, hdot⟩ := h top List.mem_cons_self
        have hpush : ∀ s, push true s top = top :: s := by
          intro s
          rw [push.eq_def, if_neg (not_or.2 ⟨hnil, hdot⟩), if_neg htop]
        rw [if_neg htop, List.reverse_cons, List.foldl_append, List.foldl_cons, List.foldl_nil,
          hpush, push.eq_def, if_neg (by decide), if_pos rfl]
        simp only [if_neg htop]
  · rw [if_neg hup, List.reverse_cons, List.foldl_append]
    rfl

lemma foldl_push_foldl_push (h : Kept stack) (es below : List Text) :
    (es.foldl (push false) stack).reverse.foldl (push true) below =
      es.foldl (push true) (stack.reverse.foldl (push true) below) := by
  induction es generalizing stack with
  | nil => rfl
  | cons e es ih =>
    rw [List.foldl_cons, ih (h.push false e), foldl_push_push h, List.foldl_cons]

/-- The elements of a cleaned path are those that were left, behind some that are dropped. -/
lemma exists_elements_clean (p : Text) : ∃ dropped,
    elements (clean p) = dropped ++ cleanElements p ∧ ∀ e ∈ dropped, e = [] ∨ e = dot := by
  have hsplit : cleanElements p ≠ [] →
      Text.split slash (Text.join root (cleanElements p)) = cleanElements p :=
    Text.split_join fun n hn => (mem_cleanElements hn).2.2.2
  rw [clean]
  cases isAbsolute p with
  | true =>
    dsimp only
    rw [elements, Text.split_cons_self]
    by_cases hes : cleanElements p = []
    · exact ⟨[[], []], by rw [hes]; rfl, by simp⟩
    · exact ⟨[[]], by rw [hsplit hes]; rfl, by simp⟩
  | false =>
    cases hes : cleanElements p with
    | nil => exact ⟨[dot], rfl, by simp⟩
    | cons e es =>
      rw [hes] at hsplit
      exact ⟨[], hsplit (List.cons_ne_nil e es), by simp⟩

lemma mem_elements_of_mem_cleanElements (h : n ∈ cleanElements p) : n ∈ elements p := by
  have hfold : ∀ {es stack : List Text}, n ∈ es.foldl (push (isAbsolute p)) stack →
      n ∈ stack ∨ n ∈ es := by
    intro es
    induction es with
    | nil => exact .inl
    | cons e es ih =>
      intro stack h
      rcases ih h with h | h
      · rcases mem_push h with h | ⟨rfl, -⟩
        · exact .inl h
        · exact .inr List.mem_cons_self
      · exact .inr (List.mem_cons_of_mem e h)
  exact (hfold (List.mem_reverse.1 h)).resolve_left List.not_mem_nil

lemma mem_clean {b : UInt8} (h : b ∈ clean p) : b ∈ slash :: dot ∨ b ∈ p := by
  have hjoin : b ∈ Text.join root (cleanElements p) → b ∈ slash :: dot ∨ b ∈ p := by
    intro h
    rcases Text.mem_join h with h | ⟨e, he, hb⟩
    · exact .inl (List.mem_cons.2 (.inl (List.mem_singleton.1 h)))
    · exact .inr (Text.mem_of_mem_split e (mem_elements_of_mem_cleanElements he) b hb)
  rw [clean] at h
  split at h
  · exact (List.mem_cons.1 h).elim (fun hb => .inl (hb ▸ List.mem_cons_self)) hjoin
  · exact .inl (List.mem_cons_of_mem slash h)
  · exact hjoin h

/-- Behind the elements of an absolute path, those of a cleaned relative path do what those of the
path do. -/
lemma foldl_push_clean (hp : isAbsolute p = false) (below : List Text) :
    (elements (clean p)).foldl (push true) below = (elements p).foldl (push true) below := by
  obtain ⟨dropped, helements, hdropped⟩ := exists_elements_clean p
  have hskip : dropped.foldl (push true) below = below := by
    clear helements
    induction dropped with
    | nil => rfl
    | cons e es ih =>
      rw [List.forall_mem_cons] at hdropped
      rw [List.foldl_cons, push.eq_def, if_pos hdropped.1, ih hdropped.2]
  rw [helements, List.foldl_append, hskip, cleanElements, hp]
  exact foldl_push_foldl_push (by simp [Kept]) (elements p) below

lemma isAbsolute_clean_eq (p : Text) : isAbsolute (clean p) = isAbsolute p := by
  by_cases hp : isAbsolute p = true
  · rw [hp, isAbsolute_clean hp]
  · rw [Bool.not_eq_true] at hp
    rw [hp, Bool.eq_false_iff]
    exact fun hc => absurd (isAbsolute_of_clean hc) (by simp [hp])

/-- Cleaning a path leaves its names. -/
lemma namesFrom_clean (hw : isAbsolute workingDir = true) (p : Text) :
    namesFrom workingDir (clean p) = namesFrom workingDir p := by
  by_cases hp : isAbsolute p = true
  · rw [namesFrom_of_isAbsolute (isAbsolute_clean hp), namesFrom_of_isAbsolute hp,
      clean_of_isAbsolute hp, cleanElements_ofNames (isName_of_mem_cleanElements hp)]
  · rw [namesFrom_eq_foldl hw, namesFrom_eq_foldl hw, isAbsolute_clean_eq, if_neg hp,
      foldl_push_clean (by simpa using hp)]

/-- A name behind a path comes behind the names of the path. -/
lemma namesFrom_append (hw : isAbsolute workingDir = true) (hp : p ≠ []) (hn : IsName n) :
    namesFrom workingDir (p ++ slash :: n) = namesFrom workingDir p ++ [n] := by
  obtain ⟨b, p, rfl⟩ := List.exists_cons_of_ne_nil hp
  rw [namesFrom_eq_foldl hw, namesFrom_eq_foldl hw, elements, Text.split_append_cons,
    Text.split_of_not_mem hn.slash_not_mem, List.foldl_append, List.foldl_cons, List.foldl_nil,
    push_of_isName hn, List.reverse_cons]
  rfl

lemma join_eq_clean (hp : p ≠ []) (hn : n ≠ []) : join p n = clean (p ++ slash :: n) := by
  obtain ⟨b, p, rfl⟩ := List.exists_cons_of_ne_nil hp
  obtain ⟨c, n, rfl⟩ := List.exists_cons_of_ne_nil hn
  rfl

lemma namesFrom_join (hw : isAbsolute workingDir = true) (hp : p ≠ []) (hn : IsName n) :
    namesFrom workingDir (join p n) = namesFrom workingDir p ++ [n] := by
  rw [join_eq_clean hp hn.ne_nil, namesFrom_clean hw, namesFrom_append hw hp hn]

/-- Different names behind a path make different paths. -/
lemma eq_of_join_eq {m : Text} (hp : p ≠ []) (hn : IsName n) (hm : IsName m)
    (h : join p n = join p m) : n = m := by
  have hnames := congrArg (namesFrom root) h
  rw [namesFrom_join rfl hp hn, namesFrom_join rfl hp hm] at hnames
  simpa using hnames

/-! ### The end of a path -/

/-- Something joined with a name ends with the name, behind a separator if there is more of it. -/
lemma exists_join (hp : p ≠ []) (hn : IsName n) :
    ∃ u, join p n = u ++ n ∧ (u = [] ∨ u.getLast? = some slash) := by
  have helements : cleanElements (p ++ slash :: n) = cleanElements p ++ [n] := by
    obtain ⟨b, p, rfl⟩ := List.exists_cons_of_ne_nil hp
    rw [cleanElements, elements, Text.split_append_cons, Text.split_of_not_mem hn.slash_not_mem,
      List.foldl_append, List.foldl_cons, List.foldl_nil, push_of_isName hn, List.reverse_cons]
    rfl
  have hlast : ∃ u, Text.join root (cleanElements p ++ [n]) = u ++ n ∧
      (u = [] ∨ u.getLast? = some slash) := by
    by_cases hns : cleanElements p = []
    · exact ⟨[], by rw [hns]; rfl, .inl rfl⟩
    · exact ⟨_, Text.join_concat root hns n, .inr (by simp [root])⟩
  obtain ⟨u, hu, hend⟩ := hlast
  rw [join_eq_clean hp hn.ne_nil, clean, helements]
  cases isAbsolute (p ++ slash :: n) with
  | true =>
    refine ⟨slash :: u, congrArg (slash :: ·) hu, .inr ?_⟩
    rcases hend with rfl | hend
    · rfl
    · rw [List.getLast?_cons, hend]
      rfl
  | false =>
    refine ⟨u, ?_, hend⟩
    rw [← hu]
    cases cleanElements p <;> rfl

/-- An ending without separators is one of the joined path if it is one of the name. -/
lemma suffix_join_iff (hp : p ≠ []) (hn : IsName n) (he : slash ∉ ending) :
    ending <:+ join p n ↔ ending <:+ n := by
  obtain ⟨u, hu, hend⟩ := exists_join hp hn
  rw [hu]
  constructor
  · intro h
    rcases hend with rfl | hend
    · exact h
    · obtain ⟨v, rfl⟩ := List.getLast?_eq_some_iff.1 hend
      rw [List.append_assoc] at h
      rcases List.suffix_or_suffix_of_suffix h (List.suffix_append v _) with hs | hs
      · rcases List.suffix_cons_iff.1 hs with rfl | hs
        · exact absurd List.mem_cons_self he
        · exact hs
      · exact absurd (hs.subset List.mem_cons_self) he
  · intro h
    exact h.trans (List.suffix_append u n)

lemma EndsWithName.join (hp : p ≠ []) (hn : IsName n) : EndsWithName (join p n) := by
  obtain ⟨u, hu, -⟩ := exists_join hp hn
  refine .inr fun h => ?_
  rw [hu, List.getLast?_append_of_ne_nil u hn.ne_nil] at h
  exact hn.slash_not_mem (List.mem_of_getLast? h)

/-! ### Resolving -/

lemma dir_ofNames (h : ∀ m ∈ ns, IsName m) : dir (ofNames ns) = ofNames ns.dropLast := by
  rcases List.eq_nil_or_concat' ns with rfl | ⟨ms, n, rfl⟩
  · rfl
  · have hms : ∀ m ∈ ms, IsName m := fun m hm => h m (List.mem_append_left _ hm)
    obtain ⟨u, hu, hparent⟩ := ofNames_concat ms n hms
    rw [dir, hu, throughSlash_append u (h n (by simp)).slash_not_mem, hparent,
      List.dropLast_concat]

/-- A path is made of what goes through its last separator, and of the rest. -/
lemma exists_throughSlash (p : Text) :
    ∃ n, p = throughSlash p ++ n ∧ slash ∉ n ∧
      (throughSlash p = [] ∨ (throughSlash p).getLast? = some slash) := by
  by_cases hp : slash ∈ p
  · obtain ⟨m, v, hrev, hm⟩ := List.eq_append_cons_of_mem (List.mem_reverse.2 hp)
    obtain rfl : p = v.reverse ++ slash :: m.reverse := by
      rw [← List.reverse_reverse p, hrev, List.reverse_append, List.reverse_cons, List.append_assoc]
      rfl
    rw [throughSlash_append _ (by simpa using hm)]
    exact ⟨m.reverse, by simp, by simpa using hm, .inr (by simp)⟩
  · have hnil : throughSlash p = [] := by
      rw [throughSlash, List.reverse_eq_nil_iff, List.dropWhile_eq_nil_iff]
      exact forall_ne_slash hp
    exact ⟨p, by rw [hnil]; rfl, hp, .inl hnil⟩

/-- The last element of a path takes a step from where the rest leads. -/
lemma namesFrom_append_of_not_mem (hw : isAbsolute workingDir = true)
    (hq : q = [] ∨ q.getLast? = some slash) (hn : slash ∉ n) :
    namesFrom workingDir (q ++ n) = (push true (namesFrom workingDir q).reverse n).reverse := by
  have habsolute : isAbsolute (q ++ n) = isAbsolute q := by
    rcases hq with rfl | hq
    · cases n with
      | nil => rfl
      | cons b n => exact Bool.eq_false_iff.2 fun h => hn (by simp [isAbsolute] at h; simp [h])
    · cases q with
      | nil => cases hq
      | cons b q => rfl
  rw [namesFrom_eq_foldl hw, namesFrom_eq_foldl hw, habsolute, List.reverse_reverse]
  congr 1
  rcases hq with rfl | hq
  · rw [List.nil_append, elements, Text.split_of_not_mem hn]
    rfl
  · obtain ⟨u, rfl⟩ := List.getLast?_eq_some_iff.1 hq
    rw [List.append_assoc, List.singleton_append, elements, elements, Text.split_append_cons,
      Text.split_append_cons, Text.split_of_not_mem hn, List.foldl_append, List.foldl_append]
    rfl

lemma base_append_of_not_mem (hq : q = [] ∨ q.getLast? = some slash) (hnil : n ≠ [])
    (hn : slash ∉ n) : base (q ++ n) = n := by
  rcases hq with rfl | hq
  · rw [base, List.nil_append, if_neg hnil, ← List.nil_append n,
      dropWhile_reverse_append [] hnil hn, List.reverse_reverse, List.nil_append]
    split
    · exact absurd rfl hnil
    · rw [afterSlash, List.takeWhile_eq_self_iff.2 (forall_ne_slash hn), List.reverse_reverse]
  · obtain ⟨u, rfl⟩ := List.getLast?_eq_some_iff.1 hq
    rw [List.append_assoc]
    exact base_append u hnil hn

lemma clean_ne_nil (p : Text) : clean p ≠ [] := by
  rw [clean]
  cases isAbsolute p with
  | true => exact List.cons_ne_nil _ _
  | false =>
    cases hes : cleanElements p with
    | nil => exact List.cons_ne_nil _ _
    | cons e es =>
      have he : e ≠ [] := (mem_cleanElements (p := p) (hes ▸ List.mem_cons_self)).1
      obtain ⟨b, e, rfl⟩ := List.exists_cons_of_ne_nil he
      cases es <;> exact List.cons_ne_nil _ _

/-- A step from some names to others, as paths. -/
lemma push_ofNames (hns : ∀ m ∈ ns, IsName m) (hn : slash ∉ n) (hnil : n ≠ []) :
    (if n = dot then ofNames ns else if n = dotDot then dir (ofNames ns) else
      join (ofNames ns) n) = ofNames (push true ns.reverse n).reverse := by
  rw [push.eq_def]
  by_cases hdot : n = dot
  · rw [if_pos hdot, if_pos (.inr hdot), List.reverse_reverse]
  rw [if_neg hdot, if_neg (not_or.2 ⟨hnil, hdot⟩)]
  by_cases hup : n = dotDot
  · rw [if_pos hup, if_pos hup, dir_ofNames hns]
    rcases List.eq_nil_or_concat' ns with rfl | ⟨ms, m, rfl⟩
    · rfl
    · have hm := (hns m (by simp)).ne_dotDot
      simp [hm]
  · rw [if_neg hup, if_neg hup, join_ofNames hns ⟨hnil, hdot, hup, hn⟩, List.reverse_cons,
      List.reverse_reverse]

/-- The names of a path make its absolute path. -/
lemma ofNames_namesFrom (hw : isAbsolute workingDir = true) (q : Text) :
    (if isAbsolute (clean q) then clean q else join workingDir (clean q)) =
      ofNames (namesFrom workingDir q) := by
  rw [← namesFrom_clean hw, namesFrom]
  split_ifs with ha
  · rw [← clean_of_isAbsolute ha, clean_clean ha]
  · rw [← clean_of_isAbsolute (isAbsolute_append hw _), join_eq_clean ?_ (clean_ne_nil q)]
    rintro rfl
    cases hw

/-- Resolving a path makes the absolute path of its names. -/
theorem resolve_eq_ofNames (hw : isAbsolute workingDir = true)
    (hclean : clean workingDir = workingDir) (hp : EndsWithName p) :
    resolve workingDir p = ofNames (namesFrom workingDir p) := by
  have hof : ofNames (cleanElements workingDir) = workingDir := by
    rw [← clean_of_isAbsolute hw, hclean]
  rw [resolve]
  by_cases hroot : p = root
  · subst hroot
    rfl
  by_cases hdot : p = dot
  · subst hdot
    rw [if_neg hroot, if_pos rfl, namesFrom_eq_foldl hw]
    exact hof.symm.trans (congrArg ofNames (List.reverse_reverse _).symm)
  obtain ⟨n, hpn, hn, hq⟩ := exists_throughSlash p
  rw [if_neg hroot, if_neg hdot, dir, ofNames_namesFrom hw]
  generalize throughSlash p = q at hpn hq ⊢
  subst hpn
  by_cases hnil : n = []
  · -- Only the empty path does not end with a separator and has no last element.
    subst hnil
    rw [List.append_nil] at hp ⊢
    obtain rfl : q = [] := hq.resolve_right (hp.resolve_left (by simpa using hroot))
    rfl
  · dsimp only
    rw [base_append_of_not_mem hq hnil hn, push_ofNames (isName_of_mem_namesFrom hw) hn hnil,
      namesFrom_append_of_not_mem hw hq hn]

end Path

end Frontend
