import Frontend.Proofs.Text.Utf8
import Frontend.Proofs.Unit.Locations

/-!
# Looking up offsets

Files that are added one after the other share one range of offsets without a gap. An offset of the
range belongs to the last file that starts at or before it, which no empty file is unless it comes
last, and there it stands behind some of the bytes of the file. These are counted for its line and
its column, and both together with the file give the offset back.

The offsets of the files, and those of the line feeds of a file, are in order. So a search by
halving finds the same file and the same line feed as one from the front. The line feeds themselves
are the same whether a text is read by bytes or by characters, since no other character has their
byte.

A range of offsets is shown from the location of its start to that of its end, unless the two are
found in files of different paths. Files that were added at one path are taken for one file.
-/

namespace Frontend

/-! ### Search by halving -/

/-- The least index from `lo` on at which a test holds that holds from there up to `hi`, found by
halving the range. -/
def bisect (test : Nat → Bool) (lo hi : Nat) : Nat :=
  if lo < hi then
    if test ((lo + hi) / 2) then bisect test lo ((lo + hi) / 2)
    else bisect test ((lo + hi) / 2 + 1) hi
  else lo
termination_by hi - lo

/-- A test that does not fail again splits the range at the index that is found. -/
lemma bisect_spec {test : Nat → Bool} {hi : Nat}
    (hmono : ∀ j k, j ≤ k → k < hi → test j = true → test k = true) {lo : Nat} (hle : lo ≤ hi) :
    (lo ≤ bisect test lo hi ∧ bisect test lo hi ≤ hi) ∧
      (∀ k, lo ≤ k → k < bisect test lo hi → test k = false) ∧
      ∀ k, bisect test lo hi ≤ k → k < hi → test k = true := by
  fun_induction bisect test lo hi with
  | case1 lo hi hlt htest ih =>
    obtain ⟨hbounds, hbelow, habove⟩ :=
      ih (fun j k hjk hk => hmono j k hjk (by omega)) (by omega)
    refine ⟨⟨hbounds.1, by omega⟩, hbelow, fun k hk hhi => ?_⟩
    by_cases hmid : k < (lo + hi) / 2
    · exact habove k hk hmid
    · exact hmono _ k (not_lt.1 hmid) hhi htest
  | case2 lo hi hlt htest ih =>
    obtain ⟨hbounds, hbelow, habove⟩ := ih hmono (by omega)
    refine ⟨⟨by omega, hbounds.2⟩, fun k hk hlt' => ?_, habove⟩
    by_cases hmid : k ≤ (lo + hi) / 2
    · by_contra hne
      exact htest (hmono k _ hmid (by omega) (by simpa using hne))
    · exact hbelow k (by omega) hlt'
  | case3 lo hi hlt => exact ⟨⟨le_rfl, hle⟩, fun k _ _ => by omega, fun k _ _ => by omega⟩

/-- A test on the elements of a list that does not fail again splits the list there. -/
lemma split_of_bisect {α : Type} {test : α → Bool} {l : List α}
    (h : l.Pairwise fun x y => test x = true → test y = true) {r : Nat}
    (hr : bisect (fun k => l[k]?.any test) 0 l.length = r) :
    r ≤ l.length ∧ (∀ x ∈ l.take r, test x = false) ∧ ∀ x ∈ l.drop r, test x = true := by
  have hmono : ∀ j k, j ≤ k → k < l.length → l[j]?.any test = true → l[k]?.any test = true := by
    intro j k hjk hk htest
    rcases Nat.eq_or_lt_of_le hjk with rfl | hlt
    · exact htest
    · rw [List.getElem?_eq_getElem (hlt.trans hk), Option.any_some] at htest
      rw [List.getElem?_eq_getElem hk, Option.any_some]
      exact List.pairwise_iff_getElem.1 h j k _ hk hlt htest
  obtain ⟨⟨-, hle⟩, hbelow, habove⟩ := bisect_spec hmono (Nat.zero_le _)
  rw [hr] at hle hbelow habove
  refine ⟨hle, fun x hx => ?_, fun x hx => ?_⟩
  · obtain ⟨k, hk, rfl⟩ := List.mem_take_iff_getElem.1 hx
    have hfalse := hbelow k (Nat.zero_le k) (by omega)
    rwa [List.getElem?_eq_getElem (by omega), Option.any_some] at hfalse
  · obtain ⟨k, hk, rfl⟩ := List.mem_drop_iff_getElem.1 hx
    have hlt : r + k < l.length := by omega
    have htrue := habove (r + k) (Nat.le_add_right r k) hlt
    rwa [List.getElem?_eq_getElem hlt, Option.any_some] at htrue

/-! ### Line feeds -/

namespace SourceFiles

/-- The line feeds that are kept of a text are the offsets of its bytes of that value. -/
lemma mem_newlinesFrom {offset n : Nat} {text : Text} :
    n ∈ newlinesFrom offset text ↔ ∃ k, text[k]? = some 0x0A ∧ n = offset + k := by
  induction text generalizing offset with
  | nil => simp [newlinesFrom]
  | cons b text ih =>
    have hstep : n ∈ newlinesFrom offset (b :: text) ↔
        b = 0x0A ∧ n = offset ∨ n ∈ newlinesFrom (offset + 1) text := by
      rw [newlinesFrom]
      split_ifs with hb <;> simp [hb]
    rw [hstep, ih]
    constructor
    · rintro (⟨rfl, rfl⟩ | ⟨k, hk, rfl⟩)
      · exact ⟨0, rfl, rfl⟩
      · exact ⟨k + 1, hk, by omega⟩
    · rintro ⟨_ | k, hk, rfl⟩
      · exact .inl ⟨Option.some.inj hk, rfl⟩
      · exact .inr ⟨k, hk, by omega⟩

lemma pairwise_newlinesFrom (offset : Nat) (text : Text) :
    (newlinesFrom offset text).Pairwise (· < ·) := by
  induction text generalizing offset with
  | nil => exact .nil
  | cons b text ih =>
    rw [newlinesFrom]
    split_ifs
    · refine List.pairwise_cons.2 ⟨fun n hn => ?_, ih _⟩
      exact (bounds_of_mem_newlinesFrom hn).1
    · exact ih _

/-- The offsets of the line feeds of a text that is cut into units, the first one at an offset. -/
def lineFeeds : Nat → List Text.Piece → List Nat
  | _,      []      => []
  | offset, u :: us =>
    (if u.code = 0x0A then [offset] else []) ++ lineFeeds (offset + u.bytes.length) us

/-- The bytes of a character are no line feeds, unless it is one. -/
lemma newlinesFrom_encodeScalar {c : Nat} (hc : Text.isScalar c = true) (offset : Nat) :
    newlinesFrom offset (Text.encodeScalar c) = if c = 0x0A then [offset] else [] := by
  rcases Text.encodeScalar_cases hc with ⟨a, he, ha⟩ | ⟨hlarge, hbytes⟩
  · have hiff : a = 0x0A ↔ c = 0x0A := by
      rw [← ha, ← UInt8.toNat_inj]
      rfl
    rw [he, newlinesFrom, newlinesFrom]
    simp only [hiff]
  · rw [if_neg (by omega), List.eq_nil_iff_forall_not_mem]
    intro n hn
    obtain ⟨k, hk, -⟩ := mem_newlinesFrom.1 hn
    have := hbytes _ (List.mem_of_getElem? hk)
    exact absurd this (by decide)

/-- The line feeds are found by characters as well as by bytes, also where the text is not valid. -/
lemma newlinesFrom_eq_lineFeeds (offset : Nat) (text : Text) :
    newlinesFrom offset text = lineFeeds offset (Text.pieces text) := by
  fun_induction Text.pieces text generalizing offset with
  | case1 => rfl
  | case2 b t c rest h ih =>
    obtain ⟨hc, heq⟩ := Text.eq_encodeScalar_of_decode? h
    rw [heq, newlinesFrom_append, newlinesFrom_encodeScalar hc, ih]
    rfl
  | case3 b t h ih =>
    have hb : b ≠ 0x0A := by
      rintro rfl
      rw [Text.decode?_one (by decide)] at h
      cases h
    rw [newlinesFrom, if_neg hb, ih]
    rfl

end SourceFiles

/-- Bytes on the same line and in the same column are the same. -/
lemma Text.eq_of_lineAt_eq {t : Text} {j k : Nat} (hj : j ≤ t.length) (hk : k ≤ t.length)
    (hline : t.lineAt j = t.lineAt k) (hcolumn : t.columnAt j = t.columnAt k) : j = k := by
  wlog hjk : j ≤ k generalizing j k
  · exact (this hk hj hline.symm hcolumn.symm (by omega)).symm
  obtain ⟨d, rfl⟩ := Nat.exists_eq_add_of_le hjk
  -- Between the two there is no line feed, so that each byte there adds to the column.
  rw [Text.lineAt, Text.lineAt, List.take_add, List.count_append] at hline
  have hmid : ∀ b ∈ (t.drop j).take d, (b != 0x0A) = true := by
    intro b hb
    have hcount : ((t.drop j).take d).count 0x0A = 0 := by omega
    rw [bne_iff_ne]
    rintro rfl
    exact List.count_eq_zero.1 hcount hb
  rw [Text.columnAt, Text.columnAt, List.take_add, List.reverse_append,
    List.takeWhile_append_of_pos (by simpa using hmid), List.length_append, List.length_reverse,
    List.length_take, List.length_drop] at hcolumn
  omega

namespace SourceFiles

/-! ### Files that are added one after the other -/

/-- The set of files that some texts at some paths make when they are added one after the other. -/
def ofTexts (added : List (Text × Text)) : SourceFiles :=
  added.foldl (fun fs file => fs.add file.1 file.2) {}

/-- How many bytes some files have together. -/
def size (added : List (Text × Text)) : Nat := (added.map fun file => file.2.length).sum

variable {added : List (Text × Text)} {fs : SourceFiles} {file : SourceFile} {path text : Text}
  {m n : Nat} {p q : Int}

lemma size_append (added later : List (Text × Text)) :
    size (added ++ later) = size added + size later := by
  rw [size, List.map_append, List.sum_append]
  rfl

lemma size_singleton (file : Text × Text) : size [file] = file.2.length := by simp [size]

lemma size_take_le (added : List (Text × Text)) {m n : Nat} (h : m ≤ n) :
    size (added.take m) ≤ size (added.take n) := by
  obtain ⟨d, rfl⟩ := Nat.exists_eq_add_of_le h
  rw [List.take_add, size_append]
  exact Nat.le_add_right _ _

lemma size_take_succ (h : added[m]? = some (path, text)) :
    size (added.take (m + 1)) = size (added.take m) + text.length := by
  rw [List.take_add_one, h, size_append, Option.toList_some, size_singleton]

lemma ofTexts_append (added : List (Text × Text)) (file : Text × Text) :
    ofTexts (added ++ [file]) = (ofTexts added).add file.1 file.2 := by
  rw [ofTexts, List.foldl_append]
  rfl

lemma length_ofTexts (added : List (Text × Text)) : (ofTexts added).length = size added := by
  induction added using List.reverseRecOn with
  | nil => rfl
  | append_singleton added file ih =>
    rw [ofTexts_append, length_add, ih, size_append, size_singleton]

lemma length_files_ofTexts (added : List (Text × Text)) :
    (ofTexts added).files.length = added.length := by
  induction added using List.reverseRecOn with
  | nil => rfl
  | append_singleton added file ih =>
    rw [ofTexts_append, files_add, List.length_append, List.length_append, ih]
    rfl

/-- A file of the set is kept with the offset where the files before it end. -/
lemma getElem?_files_ofTexts (added : List (Text × Text)) (m : Nat) :
    (ofTexts added).files[m]? =
      added[m]?.map fun file => SourceFile.ofText file.1 (size (added.take m)) file.2 := by
  induction added using List.reverseRecOn with
  | nil => rfl
  | append_singleton added file ih =>
    rw [ofTexts_append, files_add, List.getElem?_append, List.getElem?_append,
      length_files_ofTexts, length_ofTexts]
    by_cases hm : m < added.length
    · rw [if_pos hm, if_pos hm, ih, List.take_append_of_le_length hm.le]
    · rw [if_neg hm, if_neg hm]
      cases hd : m - added.length with
      | succ d => rfl
      | zero =>
        have htake : (added ++ [file]).take m = added := by
          rw [List.take_append, hd, List.take_zero, List.append_nil, List.take_of_length_le]
          omega
        rw [htake]
        rfl

lemma exists_of_files (h : (ofTexts added).files[m]? = some file) : ∃ path text,
    added[m]? = some (path, text) ∧ file = SourceFile.ofText path (size (added.take m)) text := by
  rw [getElem?_files_ofTexts, Option.map_eq_some_iff] at h
  obtain ⟨⟨path, text⟩, hm, rfl⟩ := h
  exact ⟨path, text, hm, rfl⟩

/-- Files start in the order in which they were added. -/
lemma pairwise_offset (added : List (Text × Text)) :
    (ofTexts added).files.Pairwise fun file later => file.offset ≤ later.offset := by
  refine List.pairwise_iff_getElem.2 fun m n hm hn h => ?_
  obtain ⟨_, _, -, hfile⟩ := exists_of_files (List.getElem?_eq_getElem hm)
  obtain ⟨_, _, -, hlater⟩ := exists_of_files (List.getElem?_eq_getElem hn)
  rw [hfile, hlater]
  exact size_take_le added h.le

/-! ### The file of an offset -/

/-- The file at an index is the last one that starts at or before an offset. -/
def Holds (fs : SourceFiles) (m : Nat) (p : Int) : Prop :=
  ∃ file, fs.files[m]? = some file ∧ (file.offset : Int) ≤ p ∧
    ∀ n later, m < n → fs.files[n]? = some later → p < later.offset

/-- Where the files that start at or before an offset are followed by those that do not, the last
of the former has the offset, and the first file if there is none. -/
lemma fileAt?_of_split {r : Nat} (hr : r ≤ fs.files.length)
    (hbelow : ∀ file ∈ fs.files.take r, (file.offset : Int) ≤ p)
    (habove : ∀ file ∈ fs.files.drop r, p < file.offset) :
    fs.fileAt? p = fs.files[r - 1]? := by
  have hbehind : (fs.files.drop r).reverse.find? (fun file => (file.offset : Int) ≤ p) = none := by
    rw [List.find?_eq_none]
    intro file hfile
    simpa using habove file (List.mem_reverse.1 hfile)
  have hsplit : fs.files.reverse.find? (fun file => (file.offset : Int) ≤ p) =
      (fs.files.take r).reverse.find? (fun file => (file.offset : Int) ≤ p) := by
    conv_lhs => rw [← List.take_append_drop r fs.files]
    rw [List.reverse_append, List.find?_append, hbehind, Option.none_or]
  rw [fileAt?, hsplit]
  cases r with
  | zero => exact List.head?_eq_getElem?
  | succ r =>
    have hlt : r < fs.files.length := hr
    rw [List.take_succ_eq_append_getElem hlt] at hbelow ⊢
    have hle := hbelow fs.files[r] (List.mem_append_right _ (List.mem_singleton_self _))
    rw [List.reverse_concat, Nat.add_sub_cancel, List.find?_cons_of_pos (by simpa using hle),
      List.getElem?_eq_getElem hlt]

lemma Holds.fileAt? (h : (ofTexts added).Holds m p) :
    (ofTexts added).fileAt? p = (ofTexts added).files[m]? := by
  obtain ⟨file, hm, hle, hlater⟩ := h
  obtain ⟨hlt, rfl⟩ := List.getElem?_eq_some_iff.1 hm
  refine fileAt?_of_split (r := m + 1) hlt (fun earlier he => ?_) fun later hl => ?_
  · obtain ⟨k, hk, rfl⟩ := List.mem_take_iff_getElem.1 he
    rcases Nat.eq_or_lt_of_le (show k ≤ m by omega) with rfl | hkm
    · exact hle
    · have := List.pairwise_iff_getElem.1 (pairwise_offset added) k m (by omega) hlt hkm
      omega
  · obtain ⟨k, hk, rfl⟩ := List.mem_drop_iff_getElem.1 hl
    exact hlater (m + 1 + k) _ (by omega) (List.getElem?_eq_getElem (by omega))

/-- The file of an offset, found by halving. -/
def searchFile (fs : SourceFiles) (p : Int) : Option SourceFile :=
  fs.files[bisect (fun k => fs.files[k]?.any fun file => p < file.offset) 0 fs.files.length - 1]?

/-- Halving splits the files into those that start at or before an offset and those that do not. -/
lemma split_files (added : List (Text × Text)) (p : Int) {r : Nat}
    (hr : bisect (fun k => (ofTexts added).files[k]?.any fun file => p < file.offset) 0
      (ofTexts added).files.length = r) :
    r ≤ (ofTexts added).files.length ∧
      (∀ file ∈ (ofTexts added).files.take r, (file.offset : Int) ≤ p) ∧
      ∀ file ∈ (ofTexts added).files.drop r, p < file.offset := by
  have hmono : (ofTexts added).files.Pairwise fun file later =>
      decide (p < file.offset) = true → decide (p < later.offset) = true := by
    refine (pairwise_offset added).imp fun hle hlt => ?_
    simp only [decide_eq_true_eq] at hlt ⊢
    omega
  simpa using split_of_bisect hmono hr

lemma fileAt?_eq_searchFile (added : List (Text × Text)) (p : Int) :
    (ofTexts added).fileAt? p = (ofTexts added).searchFile p := by
  obtain ⟨hr, hbelow, habove⟩ := split_files added p rfl
  exact fileAt?_of_split hr hbelow habove

/-- Every offset from the first one on has a file. -/
lemma exists_holds (hne : added ≠ []) (h₀ : 0 ≤ p) : ∃ m, (ofTexts added).Holds m p := by
  obtain ⟨r, hr⟩ : ∃ r, bisect (fun k => (ofTexts added).files[k]?.any fun file => p < file.offset)
      0 (ofTexts added).files.length = r := ⟨_, rfl⟩
  obtain ⟨hle, hbelow, habove⟩ := split_files added p hr
  cases r with
  | zero =>
    -- The first file starts at the first offset, so that it cannot stand behind the split.
    obtain ⟨⟨path, text⟩, later, rfl⟩ := List.exists_cons_of_ne_nil hne
    have hfirst := getElem?_files_ofTexts ((path, text) :: later) 0
    have hlt := habove _ (List.mem_of_getElem? hfirst)
    rw [List.take_zero] at hlt
    exact absurd hlt (not_lt.2 h₀)
  | succ m =>
    refine ⟨m, (ofTexts added).files[m], List.getElem?_eq_getElem hle, ?_, fun n later hn hl => ?_⟩
    · exact hbelow _ (List.mem_take_iff_getElem.2 ⟨m, by omega, rfl⟩)
    · obtain ⟨hlt, rfl⟩ := List.getElem?_eq_some_iff.1 hl
      exact habove _ (List.mem_drop_iff_getElem.2 ⟨n - (m + 1), by omega, by congr 1; omega⟩)

end SourceFiles

namespace SourceFile

/-- The line and the column of an offset in a file, found by halving. -/
def searchLineColumn (file : SourceFile) (p : Int) : Int × Int :=
  match bisect (fun k => file.newlines[k]?.any fun n : Nat => p ≤ n) 0 file.newlines.length with
  | 0     => (1, p - file.offset + 1)
  | k + 1 => (k + 2, p - (file.newlines[k]?.getD 0 : Nat))

/-- The line feeds of a file are in order, so halving finds the last one before an offset. -/
lemma lineColumn_eq_search {file : SourceFile} (h : file.newlines.Pairwise (· < ·)) (p : Int) :
    file.lineColumn p = file.searchLineColumn p := by
  have hmono : file.newlines.Pairwise fun n later : Nat =>
      decide (p ≤ n) = true → decide (p ≤ later) = true := by
    refine h.imp fun hlt hle => ?_
    simp only [decide_eq_true_eq] at hle ⊢
    omega
  rw [lineColumn, searchLineColumn]
  generalize hr : bisect _ 0 file.newlines.length = r
  obtain ⟨hle, hbelow, habove⟩ := split_of_bisect hmono hr
  -- the line feeds in front of the offset are those that the search leaves below
  have htake : file.newlines.takeWhile (fun n : Nat => (n : Int) < p) = file.newlines.take r := by
    conv_lhs => rw [← List.take_append_drop r file.newlines]
    have hdrop : (file.newlines.drop r).takeWhile (fun n : Nat => (n : Int) < p) = [] := by
      apply List.takeWhile_eq_nil_iff.2
      intro hpos
      simpa using habove _ (List.getElem_mem hpos)
    rw [List.takeWhile_append_of_pos, hdrop, List.append_nil]
    intro n hn
    simpa using hbelow n hn
  simp only [htake]
  cases r with
  | zero => rfl
  | succ k =>
    have hlt : k < file.newlines.length := hle
    rw [List.take_succ_eq_append_getElem hlt, List.getLast?_concat, List.length_append,
      List.length_take_of_le hlt.le]
    dsimp only
    rw [List.getElem?_eq_getElem hlt]
    refine Prod.ext ?_ rfl
    rw [List.length_singleton]
    push_cast
    ring

/-- What is kept of a text at a path that starts at some offset. -/
structure Keeps (file : SourceFile) (path text : Text) (offset : Nat) : Prop where
  path_eq : file.path = path
  offset_eq : file.offset = offset
  length_eq : file.length = text.length
  increasing : file.newlines.Pairwise (· < ·)
  mem_newlines (n : Nat) : n ∈ file.newlines ↔ ∃ k, text[k]? = some 0x0A ∧ n = offset + k
  newlines_eq : file.newlines = SourceFiles.lineFeeds offset text.pieces

lemma keeps_ofText (path : Text) (offset : Nat) (text : Text) :
    (ofText path offset text).Keeps path text offset :=
  ⟨rfl, rfl, rfl, SourceFiles.pairwise_newlinesFrom offset text,
    fun _ => SourceFiles.mem_newlinesFrom, SourceFiles.newlinesFrom_eq_lineFeeds offset text⟩

end SourceFile

/-- The location of a range between two places that have locations of their own. If these are not of
one path, the range is shown where it starts. -/
def Location.upTo (first last : Location) : Location :=
  if first.path = last.path then
    ⟨first.path, first.startLine, first.startColumn, last.startLine, last.startColumn⟩
  else ⟨first.path, first.startLine, first.startColumn, first.startLine, first.startColumn⟩

namespace SourceFiles

variable {added : List (Text × Text)} {m n : Nat} {p q : Int}

/-! ### The location of an offset -/

/-- An offset that belongs to a file stands behind some of its bytes. -/
lemma Holds.exists_byte (h : (ofTexts added).Holds m p) (hp : p ≤ (ofTexts added).length) :
    ∃ path text k, added[m]? = some (path, text) ∧ k ≤ text.length ∧
      p = size (added.take m) + k ∧ (ofTexts added).fileAt? p =
        some (SourceFile.ofText path (size (added.take m)) text) := by
  have hfile := h.fileAt?
  obtain ⟨file, hm, hle, hlater⟩ := h
  obtain ⟨path, text, hadd, rfl⟩ := exists_of_files hm
  obtain ⟨k, hk⟩ := Int.le.dest hle
  refine ⟨path, text, k, hadd, ?_, hk.symm, hfile.trans hm⟩
  have hend : p ≤ size (added.take (m + 1)) := by
    cases hnext : added[m + 1]? with
    | some next =>
      have hlt := hlater (m + 1) _ (Nat.lt_succ_self m)
        (by rw [getElem?_files_ofTexts, hnext, Option.map_some])
      exact hlt.le
    | none => rwa [List.take_of_length_le (List.getElem?_eq_none_iff.1 hnext), ← length_ofTexts]
  rw [size_take_succ hadd, ← hk] at hend
  have hoffset : (SourceFile.ofText path (size (added.take m)) text).offset =
    size (added.take m) := rfl
  omega

lemma Holds.at? (h : (ofTexts added).Holds m p) (h₀ : 0 ≤ p) (hp : p ≤ (ofTexts added).length) :
    ∃ path text k, added[m]? = some (path, text) ∧ k ≤ text.length ∧
      p = size (added.take m) + k ∧ (ofTexts added).at? p = some (.ofByte path text k) := by
  obtain ⟨path, text, k, hadd, hk, rfl, hfile⟩ := h.exists_byte hp
  refine ⟨path, text, k, hadd, hk, rfl, ?_⟩
  rw [at?_of_le h₀ hp, hfile, Option.map_some, place, add_comm, lineColumn_eq path _ hk]
  rfl

/-- The location of an offset and its file give it back. -/
lemma Holds.eq_of_at? (hp : (ofTexts added).Holds m p) (hq : (ofTexts added).Holds m q)
    (hp₀ : 0 ≤ p) (hp₁ : p ≤ (ofTexts added).length) (hq₀ : 0 ≤ q)
    (hq₁ : q ≤ (ofTexts added).length)
    (h : (ofTexts added).at? p = (ofTexts added).at? q) : p = q := by
  obtain ⟨path, text, j, hadd, hj, rfl, hat⟩ := hp.at? hp₀ hp₁
  obtain ⟨path', text', k, hadd', hk, rfl, hat'⟩ := hq.at? hq₀ hq₁
  obtain ⟨rfl, rfl⟩ := Prod.mk.inj (Option.some.inj (hadd.symm.trans hadd'))
  have hsame := Option.some.inj (hat.symm.trans (h.trans hat'))
  rw [Location.ofByte, Location.ofByte, Location.mk.injEq] at hsame
  obtain ⟨-, hline, hcolumn, -⟩ := hsame
  rw [Text.eq_of_lineAt_eq hj hk (by exact_mod_cast hline) (by exact_mod_cast hcolumn)]

lemma at?_eq_none_iff (added : List (Text × Text)) (p : Int) :
    (ofTexts added).at? p = none ↔ added = [] ∨ p < 0 ∨ (ofTexts added).length < p := by
  constructor
  · intro h
    by_contra! hin
    obtain ⟨hne, h₀, hp⟩ := hin
    obtain ⟨m, hm⟩ := exists_holds hne h₀
    obtain ⟨path, text, k, -, -, -, hat⟩ := hm.at? h₀ hp
    simp [h] at hat
  · rintro (rfl | h)
    · rw [SourceFiles.at?, locate?]
      split
      · rfl
      · rfl
    · rw [SourceFiles.at?, locate?, if_pos]
      omega

/-- Lookup is exact. The files that are added share one range of offsets without a gap, and each is
kept with the offsets of its line feeds in order, which are found by bytes as by characters. An
offset outside of the range has no location. One of the range stands behind some bytes of the last
file that starts at or before it, and has the path of this file and the line and the column that
these bytes make; no other offset of the file has them. Both searches can be made by halving. -/
theorem at?_exact (added : List (Text × Text)) :
    ((ofTexts added).files.length = added.length ∧ (ofTexts added).length = size added ∧
      ∀ m path text, added[m]? = some (path, text) → ∃ file : SourceFile,
        (ofTexts added).files[m]? = some file ∧ file.Keeps path text (size (added.take m))) ∧
    (∀ p : Int, (ofTexts added).at? p = none ↔
      added = [] ∨ p < 0 ∨ (ofTexts added).length < p) ∧
    (∀ p : Int, added ≠ [] → 0 ≤ p → p ≤ (ofTexts added).length → ∃ m path text k,
      (ofTexts added).Holds m p ∧ added[m]? = some (path, text) ∧ k ≤ text.length ∧
      p = size (added.take m) + k ∧ (ofTexts added).at? p = some (.ofByte path text k)) ∧
    (∀ (m : Nat) (p q : Int), 0 ≤ p → p ≤ (ofTexts added).length → 0 ≤ q →
      q ≤ (ofTexts added).length → (ofTexts added).Holds m p → (ofTexts added).Holds m q →
      (ofTexts added).at? p = (ofTexts added).at? q → p = q) ∧
    ∀ p : Int, (ofTexts added).fileAt? p = (ofTexts added).searchFile p ∧
      ∀ file ∈ (ofTexts added).files, file.lineColumn p = file.searchLineColumn p := by
  refine ⟨⟨length_files_ofTexts added, length_ofTexts added, ?_⟩, at?_eq_none_iff added, ?_, ?_, ?_⟩
  · intro m path text hm
    refine ⟨_, ?_, SourceFile.keeps_ofText path (size (added.take m)) text⟩
    rw [getElem?_files_ofTexts, hm, Option.map_some]
  · intro p hne h₀ hp
    obtain ⟨m, hm⟩ := exists_holds hne h₀
    obtain ⟨path, text, k, hat⟩ := hm.at? h₀ hp
    exact ⟨m, path, text, k, hm, hat⟩
  · intro m p q hp₀ hp₁ hq₀ hq₁ hp hq
    exact hp.eq_of_at? hq hp₀ hp₁ hq₀ hq₁
  · intro p
    refine ⟨fileAt?_eq_searchFile added p, fun file hfile => ?_⟩
    obtain ⟨m, hm⟩ := List.getElem?_of_mem hfile
    obtain ⟨path, text, -, rfl⟩ := exists_of_files hm
    exact SourceFile.lineColumn_eq_search (pairwise_newlinesFrom _ _) p

/-! ### The location of a range -/

lemma locate?_of_fileAt? {fs : SourceFiles} {a b : Int} {first last : SourceFile} (h₀ : 0 ≤ a)
    (hab : a ≤ b) (hb : b ≤ fs.length) (hfirst : fs.fileAt? a = some first)
    (hlast : fs.fileAt? b = some last) :
    fs.locate? a b = some ((place first a).upTo (place last b)) := by
  rw [locate?, if_neg (by omega), hfirst, hlast]
  by_cases h : first.path = last.path <;> simp [Location.upTo, place, h]

/-- A range starts at the location of its first offset. It ends at that of its last one if both are
found at one path, as they are if they belong to one file, and otherwise where it starts. So if no
two files have the same path, it ends at its last offset exactly if that belongs to the same
file. -/
theorem locate?_eq_upTo {a b : Int} (hne : added ≠ []) (h₀ : 0 ≤ a) (hab : a ≤ b)
    (hb : b ≤ (ofTexts added).length) : ∃ m n first last, (ofTexts added).Holds m a ∧
    (ofTexts added).Holds n b ∧ (ofTexts added).at? a = some first ∧
    (ofTexts added).at? b = some last ∧
    (ofTexts added).locate? a b = some (first.upTo last) ∧ (m = n → first.path = last.path) ∧
    ((added.map Prod.fst).Nodup → first.path = last.path → m = n) := by
  obtain ⟨m, hm⟩ := exists_holds hne h₀
  obtain ⟨n, hn⟩ := exists_holds hne (h₀.trans hab)
  obtain ⟨path, text, j, hadd, -, -, hfile⟩ := hm.exists_byte (hab.trans hb)
  obtain ⟨path', text', k, hadd', -, -, hfile'⟩ := hn.exists_byte hb
  have hat := at?_of_le h₀ (hab.trans hb)
  have hat' := at?_of_le (h₀.trans hab) hb
  rw [hfile, Option.map_some] at hat
  rw [hfile', Option.map_some] at hat'
  refine ⟨m, n, _, _, hm, hn, hat, hat', locate?_of_fileAt? h₀ hab hb hfile hfile', ?_, ?_⟩
  · rintro rfl
    obtain ⟨rfl, -⟩ := Prod.mk.inj (Option.some.inj (hadd.symm.trans hadd'))
    rfl
  · rintro hnodup (rfl : path = path')
    have hpath : (added.map Prod.fst)[m]? = some path := by
      rw [List.getElem?_map, hadd, Option.map_some]
    have hpath' : (added.map Prod.fst)[n]? = some path := by
      rw [List.getElem?_map, hadd', Option.map_some]
    have hlt := (List.getElem?_eq_some_iff.1 hpath).1
    exact (List.getElem?_inj hlt hnodup).1 (hpath.trans hpath'.symm)

/-- A range from the second line of a file over an empty one to a file of another path. -/
theorem locate?_eq_upTo_across : ∃ added, added = [(Text.ofString "a", Text.ofString "x\ny"),
      ([], []), (Text.ofString "b", Text.ofString "z\n"), (Text.ofString "a", [])] ∧
    added ≠ [] ∧ (4 : Int) ≤ (ofTexts added).length ∧ ∃ m n first last,
    (ofTexts added).Holds m 2 ∧ (ofTexts added).Holds n 4 ∧ (ofTexts added).at? 2 = some first ∧
    (ofTexts added).at? 4 = some last ∧
    (ofTexts added).locate? 2 4 = some (first.upTo last) ∧
    first.render = Text.ofString "a:2.1" ∧ last.render = Text.ofString "b:1.2" ∧
    (first.upTo last).render = Text.ofString "a:2.1" := by
  obtain ⟨added, hadded⟩ : ∃ added, added = [(Text.ofString "a", Text.ofString "x\ny"),
    ([], []), (Text.ofString "b", Text.ofString "z\n"), (Text.ofString "a", [])] := ⟨_, rfl⟩
  have hne : added ≠ [] := by simp [hadded]
  have hlen : (4 : Int) ≤ (ofTexts added).length := by
    subst hadded
    decide
  obtain ⟨m, n, first, last, hm, hn, hfirst, hlast, hl, -⟩ :=
    locate?_eq_upTo hne (a := 2) (b := 4) (by decide) (by decide) hlen
  refine ⟨added, hadded, hne, hlen, m, n, first, last, hm, hn, hfirst, hlast, hl, ?_⟩
  subst hadded
  obtain rfl := Option.some.inj hfirst
  obtain rfl := Option.some.inj hlast
  exact ⟨by cbv, by cbv, by cbv⟩

/-- Two files that were added at one path are taken for one, though the range between them belongs
to different files: it is not shown where it starts, and even ends in a line before. -/
theorem locate?_files_of_one_path : ∃ added first l,
    added = [(Text.ofString "a", Text.ofString "x\ny"), (Text.ofString "a", Text.ofString "z")] ∧
    (ofTexts added).Holds 0 2 ∧ (ofTexts added).Holds 1 4 ∧
    (ofTexts added).at? 2 = some first ∧ first.render = Text.ofString "a:2.1" ∧
    (ofTexts added).locate? 2 4 = some l ∧ l.render = Text.ofString "a:2.1-1.2" ∧
    ¬(l.stopLine = first.startLine ∧ l.stopColumn = first.startColumn) := by
  refine ⟨_, _, _, rfl, ⟨_, rfl, by decide, ?_⟩, ⟨_, rfl, by decide, ?_⟩, rfl, by cbv, rfl, by cbv,
    by decide⟩
  · intro n later hn h
    rcases n with - | - | n
    · exact absurd hn (by decide)
    · obtain rfl := Option.some.inj h
      decide
    · cases h
  · intro n later hn h
    rcases n with - | - | n
    · exact absurd hn (by decide)
    · exact absurd hn (by decide)
    · cases h

end SourceFiles

end Frontend
