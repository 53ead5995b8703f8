import Frontend.Proofs.Command.Outcomes
import Frontend.Proofs.FileTree.Paths
import Frontend.Proofs.Unit.Sources

/-!
# Finding definitions

An index has one list for each key, and the keys of names and of names with their classes are put
into the same table. As neither the name nor the class of a parsed definition holds a hash, no key
stands for two of them, so that looking up a name gives what the definitions with that name are
listed with, in their order, and nothing else. A search shows each of them on a line of its own.
-/

namespace Frontend

open Frontend.Action
open Lexer (isWordByte)

/-! ### Names and queries -/

namespace Lexer

variable {b : UInt8} {t : Text}

lemma not_mem_of_isIdentifier (h : isIdentifier t = true) (hb : isWordByte b = false) : b ∉ t :=
  fun hmem => Bool.false_ne_true (hb.symm.trans (mem_isWordByte h b hmem))

/-- What is no byte of a word is not found in a constant, which may be missing. -/
lemma not_mem_of_isConstant (h : t ≠ [] → isConstant t = true) (hb : isWordByte b = false) :
    b ∉ t := by
  intro hmem
  have hw := (Bool.and_eq_true_iff.1 (h (List.ne_nil_of_mem hmem))).1
  exact Bool.false_ne_true (hb.symm.trans (isWordByte_of_isWord hw b hmem))

end Lexer

namespace Index

/-- The byte between a class and a name. -/
def separator : UInt8 := 0x23

variable {c c' n n' : Text}

lemma separator_mem_qualifiedName (c n : Text) : separator ∈ qualifiedName c n :=
  List.mem_append_right c List.mem_cons_self

lemma qualifiedName_inj (hc : separator ∉ c) (hn : separator ∉ n) :
    qualifiedName c n = qualifiedName c' n' ↔ c = c' ∧ n = n' :=
  (List.append_cons_inj_of_notMem hc hn).trans (and_congr_right' (and_iff_right rfl))

end Index

open Index (separator qualifiedName)

namespace Definition

variable {d : Definition} {ok : Int → Prop} {c n query : Text}

/-- The name and the class of a definition do not look like a name with its class. -/
structure Plain (d : Definition) : Prop where
  name : separator ∉ d.proto.name
  className : separator ∉ d.className

/-- A definition has a name, and is one of a class if any is given. -/
def Matches (d : Definition) (c n : Text) : Prop :=
  d.proto.name = n ∧ (c = [] ∨ d.className = c)

/-- A query asks for a definition by its name, alone or behind a separator, or by its class and
name. -/
def Answers (d : Definition) (query : Text) : Prop :=
  query = d.proto.name ∨ query = separator :: d.proto.name ∨
    query = qualifiedName d.className d.proto.name

instance : Decidable (d.Matches c n) := inferInstanceAs (Decidable (_ ∧ _))

instance : Decidable (d.Answers query) := inferInstanceAs (Decidable (_ ∨ _))

lemma Parsed.plain (h : d.Parsed ok) : d.Plain :=
  ⟨Lexer.not_mem_of_isIdentifier h.proto.name rfl, Lexer.not_mem_of_isConstant h.className rfl⟩

end Definition

/-! ### Looking up -/

namespace Index

variable {α : Type} {c n : Text} {ds : List (Definition × α)}

/-- The key that a name in a class is looked up under, or any such name if the class is empty. -/
def keyOf (c n : Text) : Text := if c = [] then n else qualifiedName c n

/-- What a definition with a label adds to the list under a key. -/
def listed (key : Text) (d : Definition × α) : List α :=
  (if d.1.proto.name = key then [d.2] else []) ++
    if d.1.className ≠ [] ∧ qualifiedName d.1.className d.1.proto.name = key then [d.2] else []

lemma get_push (ix : Index α) (k key : Text) (a : α) :
    (ix.push k a).get key = ix.get key ++ if k = key then [a] else [] := by
  obtain ⟨es⟩ := ix
  rw [push, get, get]
  induction es with
  | nil =>
    rw [pushEntry, List.lookup_cons]
    split_ifs with h
    · simp [h]
    · simp [beq_eq_false_iff_ne.2 (Ne.symm h)]
  | cons e es ih =>
    obtain ⟨k', as⟩ := e
    rw [pushEntry]
    by_cases hk : k' = k
    · rw [if_pos hk, List.lookup_cons, List.lookup_cons]
      subst hk
      split_ifs with h
      · simp [h]
      · simp [beq_eq_false_iff_ne.2 (Ne.symm h)]
    · rw [if_neg hk, List.lookup_cons, List.lookup_cons]
      by_cases h : key = k'
      · subst h
        simp [Ne.symm hk]
      · simpa [beq_eq_false_iff_ne.2 h] using ih

lemma get_insert (ix : Index α) (key : Text) (d : Definition × α) :
    (ix.insert d.1 d.2).get key = ix.get key ++ listed key d := by
  by_cases hc : d.1.className = []
  · simp [insert, listed, hc, get_push]
  · simp [insert, listed, hc, get_push]

/-- Under a key stand the labels of the definitions that are listed there, in their order. -/
lemma get_ofLabelled (key : Text) (ds : List (Definition × α)) :
    (ofLabelled ds).get key = ds.flatMap (listed key) := by
  have hfold : ∀ ix : Index α, (ds.foldl (fun ix d => ix.insert d.1 d.2) ix).get key =
      ix.get key ++ ds.flatMap (listed key) := by
    induction ds with
    | nil => simp
    | cons d ds ih =>
      intro ix
      rw [List.foldl_cons, ih, get_insert, List.flatMap_cons, List.append_assoc]
  exact hfold {}

/-- The key of a name or of a name with its class lists a definition only if it is asked for, and
then once. -/
lemma listed_keyOf {d : Definition × α} (hd : d.1.Plain) (hn : separator ∉ n) :
    listed (keyOf c n) d = if d.1.Matches c n then [d.2] else [] := by
  rw [keyOf, listed]
  -- A name is never the key of a name with its class, as only this holds a separator.
  by_cases hc : c = []
  · have hne : qualifiedName d.1.className d.1.proto.name ≠ n :=
      fun h => hn (h ▸ separator_mem_qualifiedName _ _)
    simp [hc, hne, Definition.Matches]
  · have hne : d.1.proto.name ≠ qualifiedName c n :=
      fun h => hd.name (h ▸ separator_mem_qualifiedName c n)
    have hiff : d.1.className ≠ [] ∧ qualifiedName d.1.className d.1.proto.name =
        qualifiedName c n ↔ d.1.Matches c n := by
      rw [qualifiedName_inj hd.className hd.name, Definition.Matches]
      constructor
      · rintro ⟨-, rfl, rfl⟩
        exact ⟨rfl, .inr rfl⟩
      · rintro ⟨rfl, h | rfl⟩
        · exact absurd h hc
        · exact ⟨hc, rfl, rfl⟩
    simp [hc, hne, hiff]

/-- Looking up gives the labels of the definitions that are asked for, in their order. -/
theorem lookup_ofLabelled (hds : ∀ d ∈ ds, d.1.Plain) (hn : separator ∉ n) (c : Text) :
    (ofLabelled ds).lookup c n = (ds.filter (·.1.Matches c n)).map Prod.snd := by
  have hkey : (ofLabelled ds).lookup c n = (ofLabelled ds).get (keyOf c n) := by
    rw [lookup, keyOf]
    split_ifs <;> rfl
  rw [hkey, get_ofLabelled]
  clear hkey
  induction ds with
  | nil => rfl
  | cons d ds ih =>
    rw [List.forall_mem_cons] at hds
    rw [List.flatMap_cons, ih hds.2, listed_keyOf hds.1 hn, List.filter_cons]
    by_cases h : d.1.Matches c n
    · simp [h]
    · simp [h]

lemma lookup_ofDefinitions {ds : List Definition} (hds : ∀ d ∈ ds, d.Plain) (hn : separator ∉ n)
    (c : Text) : (ofDefinitions ds).lookup c n = ds.filter (·.Matches c n) := by
  rw [ofDefinitions, lookup_ofLabelled (List.forall_mem_map.2 hds) hn, List.filter_map,
    List.map_map]
  exact List.map_id _

end Index

/-! ### Lines -/

lemma BaseType.Fits.not_mem {type : BaseType} {b : UInt8} (h : type.Fits)
    (hb : isWordByte b = false) : b ∉ type.className := by
  obtain ⟨name, hname, rfl⟩ := h
  rw [className_named]
  exact Lexer.not_mem_of_isConstant (fun _ => hname) hb

namespace Prototype

variable {p : Prototype}

lemma Fits.newline_not_mem_param (h : p.Fits) {q : Param} (hq : q ∈ p.params) :
    0x0A ∉ q.render := by
  obtain ⟨hn, type, ht, hfits⟩ := h.params q hq
  have hname : 0x0A ∉ q.name := Lexer.not_mem_of_isIdentifier hn rfl
  have htype : 0x0A ∉ type.className := hfits.not_mem rfl
  simp [Param.render, classNameOf, ht, hname, htype]

lemma Fits.newline_not_mem (h : p.Fits) : 0x0A ∉ p.render := by
  have hname : 0x0A ∉ p.name := Lexer.not_mem_of_isIdentifier h.name rfl
  have hparams : 0x0A ∉ Text.join (Text.ofString ", ") (p.params.map Param.render) := by
    intro hmem
    rcases Text.mem_join hmem with hmem | ⟨r, hr, hmem⟩
    · exact absurd hmem (by decide)
    · obtain ⟨q, hq, rfl⟩ := List.mem_map.1 hr
      exact h.newline_not_mem_param hq hmem
  rw [Prototype.render]
  simp only [List.mem_append, List.mem_cons, not_or]
  refine ⟨⟨hname, by decide, hparams⟩, by decide, ?_⟩
  cases hr : p.result with
  | none => simp
  | some type =>
    have htype : 0x0A ∉ type.className := (h.result type hr).not_mem rfl
    have harrow : 0x0A ∉ Text.ofString " -> " := by decide
    simp [htype, harrow]

end Prototype

/-- A parsed definition is described on one line. -/
lemma Definition.Parsed.newline_not_mem {d : Definition} {ok : Int → Prop} (h : d.Parsed ok) :
    0x0A ∉ d.describe := by
  have hclass : 0x0A ∉ d.className := Lexer.not_mem_of_isConstant h.className rfl
  have himpl : 0x0A ∉ d.implName := Lexer.not_mem_of_isConstant h.implName rfl
  have hdef : 0x0A ∉ Text.ofString "def " := by decide
  have hin : 0x0A ∉ Text.ofString " in impl " := by decide
  rw [describe]
  simp only [List.mem_append, not_or]
  refine ⟨⟨⟨hdef, ?_⟩, h.proto.newline_not_mem⟩, ?_⟩
  · split_ifs <;> simp [qualifiedName, hclass]
  · split_ifs <;> simp [himpl, hin]

namespace CompilationUnit

variable {t : FileTree} {u u' : CompilationUnit} {files : List (Text × Text)} {paths : List Text}

/-- The offsets of the tokens of a unit increase from file to file. -/
lemma increasing_of_ofFiles (hu : ofFiles files = .ok u) : Grammar.Increasing u.tokens := by
  induction files using List.reverseRecOn generalizing u with
  | nil =>
    obtain rfl : {} = u := Except.ok.inj hu
    exact .nil
  | append_singleton files file ih =>
    obtain ⟨u₀, hu₀, he⟩ := ofFiles_append_eq_ok.1 hu
    obtain ⟨ts, hts, rfl⟩ := exists_tokens_of_extend he
    obtain ⟨ls, hc, rfl⟩ := Lexer.exists_cut_of_tokens hts
    refine List.pairwise_append.2 ⟨ih hu₀, ?_, fun v hv w hw => ?_⟩
    · rw [List.pairwise_map]
      refine (Lexer.pairwise_place hc.text_ne_nil 0).imp fun h => ?_
      simpa [Token.relocate] using h
    · obtain ⟨path, text, k, hat⟩ := stands_of_mem hu₀ v hv
      have hlt := hat.bounds.2
      obtain ⟨w, hw', rfl⟩ := List.mem_map.1 hw
      have hle := Lexer.le_pos_of_mem_place w hw'
      have hlen := length_files_of_ofFiles hu₀
      simp only [Token.relocate]
      omega

/-- Files that are added are read before. -/
lemma exists_files_of_addFiles (h : addFiles t paths u = (u', none)) :
    ∃ files : List (Text × Text), files.map Prod.fst = paths ∧
      (∀ file ∈ files, t.read file.1 = .ok file.2) ∧ files.foldlM extend u = .ok u' := by
  induction paths generalizing u with
  | nil => exact ⟨[], rfl, by simp, congrArg Except.ok (Prod.mk.inj h).1⟩
  | cons path paths ih =>
    rw [addFiles, addInput] at h
    cases hr : t.read path with
    | error e => simp [hr] at h
    | ok text =>
      obtain ⟨v, e, ha⟩ : ∃ v e, u.add path text = (v, e) := ⟨_, _, rfl⟩
      simp only [hr, ha] at h
      cases e with
      | some e => simp at h
      | none =>
        obtain ⟨files, rfl, hread, hv⟩ := ih h
        refine ⟨(path, text) :: files, rfl, List.forall_mem_cons.2 ⟨hr, hread⟩, ?_⟩
        rw [List.foldlM_cons, extend, ha]
        exact hv

end CompilationUnit

/-! ### Queries -/

namespace Text

variable {b : UInt8} {t c n : Text}

lemma not_mem_of_cut? (h : cut? b t = none) : b ∉ t := by
  rw [cut?] at h
  split at h
  case h_1 hd =>
    intro hmem
    have hall := List.dropWhile_eq_nil_iff.1 hd b hmem
    simp at hall
  case h_2 => cases h

lemma eq_of_cut? (h : cut? b t = some (c, n)) : t = c ++ b :: n ∧ b ∉ c := by
  rw [cut?] at h
  split at h
  case h_1 => cases h
  case h_2 b' rest hd =>
    obtain ⟨rfl, rfl⟩ := Prod.mk.inj (Option.some.inj h)
    have hb' : b' = b := by
      have := List.head?_dropWhile_not (· != b) t
      simpa [hd] using this
    subst hb'
    refine ⟨?_, fun hmem => ?_⟩
    · rw [← hd, List.takeWhile_append_dropWhile]
    · simpa using List.mem_takeWhile_imp hmem

end Text

namespace Command

variable {o : Options} {t : FileTree} {path query : Text} {config : Config} {p : Project}
  {m : Module} {prec : Precedence} {source : SourceModule}

/-- A query with at most one separator is a name, or a class and a name with the separator between
them. -/
lemma splitQuery_cases (hq : query.count separator ≤ 1) :
    (splitQuery query = ([], query) ∧ separator ∉ query) ∨
      ∃ c n, splitQuery query = (c, n) ∧ query = qualifiedName c n ∧ separator ∉ c ∧
        separator ∉ n := by
  rw [splitQuery]
  cases hcut : Text.cut? 0x23 query with
  | none => exact .inl ⟨rfl, Text.not_mem_of_cut? hcut⟩
  | some parts =>
    obtain ⟨c, n⟩ := parts
    obtain ⟨rfl, hc⟩ := Text.eq_of_cut? hcut
    refine .inr ⟨c, n, rfl, rfl, hc, fun hn => ?_⟩
    have hpos : 0 < n.count separator := List.count_pos_iff.2 hn
    have hcount : List.count separator (0x23 :: n) = n.count separator + 1 := List.count_cons_self
    rw [List.count_append] at hq
    omega

/-- What a query is split into asks for the definitions that it answers. -/
lemma splitQuery_spec (hq : query.count separator ≤ 1) :
    separator ∉ (splitQuery query).2 ∧ ∀ d : Definition, d.Plain →
      (d.Matches (splitQuery query).1 (splitQuery query).2 ↔ d.Answers query) := by
  rcases splitQuery_cases hq with ⟨hs, hn⟩ | ⟨c, n, hs, rfl, hc, hn⟩
  · rw [hs]
    refine ⟨hn, fun d _ => ?_⟩
    have hbehind : query ≠ separator :: d.proto.name := fun h => hn (h ▸ List.mem_cons_self)
    have hclass : query ≠ qualifiedName d.className d.proto.name :=
      fun h => hn (h ▸ Index.separator_mem_qualifiedName _ _)
    simp [Definition.Matches, Definition.Answers, hbehind, hclass, eq_comm]
  · rw [hs]
    refine ⟨hn, fun d hd => ?_⟩
    have hname : qualifiedName c n ≠ d.proto.name :=
      fun h => hd.name (h ▸ Index.separator_mem_qualifiedName c n)
    have hbehind : qualifiedName c n = separator :: d.proto.name ↔ c = [] ∧ n = d.proto.name :=
      (Index.qualifiedName_inj hc hn : _ = qualifiedName [] d.proto.name ↔ _)
    rw [Definition.Matches, Definition.Answers, hbehind, Index.qualifiedName_inj hc hn]
    simp only [hname, false_or]
    rw [← or_and_right, and_comm, eq_comm (a := c) (b := d.className), eq_comm (a := n)]

/-! ### Searching -/

/-- A line shows a definition: it is the location of its `def` in a file of the module, with what
is defined there behind it. -/
structure ShownAs (t : FileTree) (source : SourceModule) (files : SourceFiles) (d : Definition)
    (line : Text) : Prop where
  place : ∃ path ∈ source.files, ∃ text k, t.read path = .ok text ∧
    Text.ofString "def" <+: text.drop k ∧ files.at? d.start = some (.ofByte path text k) ∧
    line = (Location.ofByte path text k).render ++ Text.ofString ": " ++ d.describe
  single : 0x0A ∉ d.describe

lemma eq_def_of_spells {piece behind : Text} (h : Lexer.Spells piece (some .defWord) behind) :
    piece = Text.ofString "def" := by
  cases h with
  | keyword hp =>
    simp only [Kind.keywords, List.mem_cons, Prod.mk.injEq, reduceCtorEq, and_false, false_or,
      and_true, List.not_mem_nil, or_false] at hp
    exact hp
  | punctuation _ hb => simp [Lexer.punctuation] at hb

/-- A module that is parsed is that of the unit of its files. -/
lemma exists_unit_of_parse (h : (source.parse t prec).2 = .ok m) :
    ∃ (files : List (Text × Text)) (u : CompilationUnit), files.map Prod.fst = source.files ∧
      (∀ file ∈ files, t.read file.1 = .ok file.2) ∧ CompilationUnit.ofFiles files = .ok u ∧
      (source.parse t prec).1 = u.files ∧ Frontend.parse prec u.tokens = .ok m := by
  rw [SourceModule.parse] at h ⊢
  obtain ⟨u, e, hadd⟩ : ∃ u e, CompilationUnit.addFiles t source.files {} = (u, e) := ⟨_, _, rfl⟩
  rw [hadd] at h ⊢
  cases e with
  | some e => cases h
  | none =>
    obtain ⟨files, hfiles, hread, hu⟩ := CompilationUnit.exists_files_of_addFiles hadd
    exact ⟨files, u, hfiles, hread, hu, rfl, CompilationUnit.parse_eq_ok.1 h⟩

/-- Every definition of a module that is parsed is shown, and they are in the order of their
offsets. -/
lemma shown_of_parse (h : (source.parse t prec).2 = .ok m) :
    (∀ d ∈ m.defs, d.Plain ∧ ShownAs t source (source.parse t prec).1 d
      ((source.parse t prec).1.startOf d ++ Text.ofString ": " ++ d.describe)) ∧
    m.defs.Pairwise (·.start < ·.start) := by
  obtain ⟨files, u, hfiles, hread, hu, hsame, hm⟩ := exists_unit_of_parse h
  have hstands := CompilationUnit.stands_of_mem hu
  have hspelled := CompilationUnit.spelled_of_stands hstands
  obtain ⟨used, he, hcovers⟩ := (Grammar.reads_of_parse hm).exists_covers hspelled
  obtain rfl : u.tokens = used := by rw [he, List.append_nil]
  have hsub : (m.defs.map fun d => (⟨.defWord, d.start⟩ : Token)).Sublist u.tokens :=
    hcovers.filter_eq ▸ List.filter_sublist
  have hparsed := (Grammar.reads_of_parse hm).parsed (b := .top) trivial hspelled
  rw [hsame]
  constructor
  · intro d hd
    have hd' := hparsed d hd
    refine ⟨hd'.plain, ?_, hd'.newline_not_mem⟩
    have hmem : (⟨.defWord, d.start⟩ : Token) ∈ u.tokens := hsub.subset (List.mem_map_of_mem hd)
    obtain ⟨path, text, k, ⟨fs, gs, hfs, -⟩, ⟨piece, behind, hdrop, hs, -⟩, hat⟩ := hstands _ hmem
    have hfile : (path, text) ∈ files := by simp [hfs]
    have hpiece : piece = Text.ofString "def" := eq_def_of_spells hs
    refine ⟨path, hfiles ▸ List.mem_map_of_mem hfile, text, k, hread _ hfile, ?_, hat, ?_⟩
    · exact ⟨behind, by rw [hdrop, hpiece]⟩
    · rw [SourceFiles.startOf, hat]
  · have hincreasing := (CompilationUnit.increasing_of_ofFiles hu).sublist hsub
    rwa [List.pairwise_map] at hincreasing

section

variable {found : List Definition} (h : Loads o t path config p)
  (hm : (p.source.parse t p.precedence).2 = .ok m)
  (hfound : (Index.ofDefinitions m.defs).lookup (splitQuery query).1 (splitQuery query).2 = found)
include h hm hfound

lemma finishes_find (hne : found ≠ []) (signals : List (FileTree × Signal)) :
    (run o t signals (.find query path)).Finishes none (found.flatMap fun d =>
      (p.source.parse t p.precedence).1.startOf d ++ Text.ofString ": " ++ d.describe ++
        [0x0A]) := by
  obtain ⟨d, ds, rfl⟩ := List.exists_cons_of_ne_nil hne
  obtain ⟨c, n, hs⟩ : ∃ c n, splitQuery query = (c, n) := ⟨_, _, rfl⟩
  rw [hs] at hfound
  have hfind : (findDefinitions o t query path).Finishes () ((d :: ds).flatMap fun d =>
      (p.source.parse t p.precedence).1.startOf d ++ Text.ofString ": " ++ d.describe ++
        [0x0A]) := by
    refine (Project.finishes_load h).bind ((Project.finishes_parse hm).bind ?_)
    rw [hs]
    dsimp only
    rw [hfound]
    exact finishes_print _
  exact hfind.then_pure none

lemma fails_find (hnil : found = []) (signals : List (FileTree × Signal)) :
    (run o t signals (.find query path)).Fails
      (.plain (p.source.path ++ Text.ofString ": no def " ++ query)) [] := by
  subst hnil
  obtain ⟨c, n, hs⟩ : ∃ c n, splitQuery query = (c, n) := ⟨_, _, rfl⟩
  rw [hs] at hfound
  have hfind : (findDefinitions o t query path).Fails
      (.plain (p.source.path ++ Text.ofString ": no def " ++ query)) [] := by
    refine (Project.finishes_load h).bind_fails ((Project.finishes_parse hm).bind_fails ?_)
    rw [hs]
    dsimp only
    rw [hfound]
    exact fails_ofExcept _
  exact hfind.bind

end

/-- Looking up a name among the definitions of a module gives exactly those with that name, of the
given class if there is one, in the order of the source. So a search shows each definition that its
query asks for on a line of its own, in this order, and fails only if there is none. -/
theorem find_exact :
    (∀ (prec : Precedence) (files : List (Text × Int)) (ts : List Token) (m : Module),
      Lexer.stream files = .ok ts → Frontend.parse prec ts = .ok m →
      (ts.filter fun t => t.kind = .defWord) = m.defs.map (fun d => ⟨.defWord, d.start⟩) ∧
      ∀ c n : Text, separator ∉ n →
        (Index.ofDefinitions m.defs).lookup c n = m.defs.filter (·.Matches c n) ∧
        ∀ (α : Type) (ds : List (Definition × α)), ds.map Prod.fst = m.defs →
          (Index.ofLabelled ds).lookup c n = (ds.filter (·.1.Matches c n)).map Prod.snd) ∧
    ∀ (o : Options) (t : FileTree) (query path : Text) (config : Config) (p : Project)
      (m : Module), Loads o t path config p → (p.source.parse t p.precedence).2 = .ok m →
      query.count separator ≤ 1 →
      ∃ lines, List.Forall₂ (ShownAs t p.source (p.source.parse t p.precedence).1)
          (m.defs.filter (·.Answers query)) lines ∧
        (m.defs.filter (·.Answers query)).Pairwise (·.start < ·.start) ∧
        (lines ≠ [] → ∀ signals,
          (run o t signals (.find query path)).Finishes none (lines.flatMap (· ++ [0x0A]))) ∧
        ((∀ signals, (run o t signals (.find query path)).Fails
          (.plain (p.source.path ++ Text.ofString ": no def " ++ query)) []) ↔
            ∀ d ∈ m.defs, ¬d.Answers query) := by
  constructor
  · -- the index: no name of a parsed definition holds a separator, so no two keys collide
    intro prec files ts m hs hm
    have hplain : ∀ d ∈ m.defs, d.Plain := fun d hd => (parsed_of_parse hs hm d hd).plain
    obtain ⟨used, he, hcovers⟩ :=
      (Grammar.reads_of_parse hm).exists_covers (Lexer.spelled_of_stream hs)
    obtain rfl : ts = used := by rw [he, List.append_nil]
    refine ⟨hcovers.filter_eq, fun c n hn => ⟨Index.lookup_ofDefinitions hplain hn c, ?_⟩⟩
    intro α ds hds
    refine Index.lookup_ofLabelled (fun d hd => hplain d.1 ?_) hn c
    exact hds ▸ List.mem_map_of_mem hd
  · -- the command: the parts of the query are the class and the name that are looked up
    intro o t query path config p m h hm hq
    obtain ⟨hshown, hordered⟩ := shown_of_parse hm
    obtain ⟨hn, hsplit⟩ := splitQuery_spec hq
    have hfound : (Index.ofDefinitions m.defs).lookup (splitQuery query).1 (splitQuery query).2 =
        m.defs.filter (·.Answers query) := by
      rw [Index.lookup_ofDefinitions (fun d hd => (hshown d hd).1) hn]
      exact List.filter_congr fun d hd => decide_eq_decide.2 (hsplit d (hshown d hd).1)
    refine ⟨_, List.forall₂_map_right_iff.2 (List.forall₂_same.2 fun d hd =>
      (hshown d (List.mem_filter.1 hd).1).2), hordered.filter _, fun hne signals => ?_, ?_⟩
    · rw [List.flatMap_map]
      exact finishes_find h hm hfound (mt List.map_eq_nil_iff.2 hne) signals
    · have hnone : m.defs.filter (·.Answers query) = [] ↔ ∀ d ∈ m.defs, ¬d.Answers query := by
        simp [List.filter_eq_nil_iff]
      rw [← hnone]
      refine ⟨fun hfails => ?_, fun hnil => fails_find h hm hfound hnil⟩
      by_contra hne
      have hok := (finishes_find h hm hfound hne [] {}).1
      rw [(hfails [] {}).1] at hok
      cases hok

/-- A name that is defined at the top level, in a class and in an implementation: the class has two
of the definitions, and no other class has any. -/
theorem find_exact_classes : ∃ text t config p ts m,
    text = Text.ofString
      "def f\n 1\nend\nclass A\n def f\n  2\n end\n impl T\n  def f\n   3\n  end\n end\nend\n" ∧
    t = ({ workingDir := Text.ofString "/w" } : FileTree).write (Text.ofString "/w/a.n") text ∧
    Loads {} t (Text.ofString "a.n") config p ∧ (p.source.parse t p.precedence).2 = .ok m ∧
    Lexer.stream [(text, 0)] = .ok ts ∧ Frontend.parse p.precedence ts = .ok m ∧
    ((Index.ofDefinitions m.defs).lookup (Text.ofString "A") (Text.ofString "f")).length = 2 ∧
    (∃ lines, lines.length = 3 ∧
      List.Forall₂ (ShownAs t p.source (p.source.parse t p.precedence).1) m.defs lines ∧
      (run {} t [] (.find (Text.ofString "#f") (Text.ofString "a.n"))).Finishes none
        (lines.flatMap (· ++ [0x0A]))) ∧
    (run {} t [] (.find (Text.ofString "B#f") (Text.ofString "a.n"))).Fails
      (.plain (Text.ofString "/w/a.n: no def B#f")) [] := by
  obtain ⟨text, htext⟩ : ∃ text, text = Text.ofString
      "def f\n 1\nend\nclass A\n def f\n  2\n end\n impl T\n  def f\n   3\n  end\n end\nend\n" :=
    ⟨_, rfl⟩
  obtain ⟨t, ht⟩ : ∃ t, t = ({ workingDir := Text.ofString "/w" } : FileTree).write
      (Text.ofString "/w/a.n") text := ⟨_, rfl⟩
  -- the module is loaded and parsed, and three definitions answer
  obtain ⟨config, prec, source, hc, hprec, hs, hpath, u, hadd, ts, hts, m, hm, hu, hclass, hall,
      hlen, hnone⟩ :
      ∃ config prec source, Options.configFor {} t (Text.ofString "a.n") = .ok config ∧
        config.table = .ok prec ∧
        SourceModule.load t (Text.ofString "a.n") config.ext = .ok source ∧
        source.path = Text.ofString "/w/a.n" ∧
        ∃ u, CompilationUnit.addFiles t source.files {} = (u, none) ∧
        ∃ ts, Lexer.stream [(text, 0)] = .ok ts ∧
        ∃ m, Frontend.parse prec ts = .ok m ∧ u.parse prec = .ok m ∧
          (m.defs.filter (·.Matches (Text.ofString "A") (Text.ofString "f"))).length = 2 ∧
          m.defs.filter (·.Answers (Text.ofString "#f")) = m.defs ∧ m.defs.length = 3 ∧
          ∀ d ∈ m.defs, ¬d.Answers (Text.ofString "B#f") := by
    subst ht htext
    exact ⟨_, _, _, by cbv, by cbv, by cbv, by cbv, _, by cbv, _, by cbv, _, by rfl, by rfl,
      by rfl, by rfl, by rfl, by decide⟩
  have hparse : (source.parse t prec).2 = .ok m := by
    simp only [SourceModule.parse, hadd, hu]
  have hl : Loads {} t (Text.ofString "a.n") config ⟨prec, source⟩ := ⟨hc, hprec, hs⟩
  obtain ⟨hlookup, hfind⟩ := find_exact
  obtain ⟨-, hnames⟩ := hlookup prec _ ts m hts hm
  obtain ⟨lines, hlines, -, hprinted, -⟩ :=
    hfind {} t (Text.ofString "#f") _ config ⟨prec, source⟩ m hl hparse (by decide)
  obtain ⟨-, -, -, -, hfails⟩ :=
    hfind {} t (Text.ofString "B#f") _ config ⟨prec, source⟩ m hl hparse (by decide)
  have hthree : lines.length = 3 := by rw [← hlines.length_eq, hall, hlen]
  have hfails := hfails.2 hnone []
  rw [hpath] at hfails
  refine ⟨text, t, config, ⟨prec, source⟩, ts, m, htext, ht, hl, hparse, hts, hm, ?_, ?_, hfails⟩
  · rw [(hnames _ _ (by decide)).1, hclass]
  · refine ⟨lines, hthree, hall ▸ hlines, hprinted ?_ []⟩
    rintro rfl
    cases hthree

end Command

end Frontend
