import Frontend.Location
import Mathlib

/-!
# Locations in a set of files

A file that is added behind others takes up the offsets behind theirs. The offsets of the other
files keep their locations, and an offset of the new file has the location that it has in the file
alone.
-/

namespace Frontend

/-! ### Lines and columns -/

/-- A file with a text, at some offset. -/
def SourceFile.ofText (path : Text) (offset : Nat) (text : Text) : SourceFile :=
  ⟨path, offset, text.length, SourceFiles.newlinesFrom offset text⟩

lemma newlinesFrom_add (offset o : Nat) (text : Text) :
    SourceFiles.newlinesFrom (offset + o) text =
      (SourceFiles.newlinesFrom offset text).map (· + o) := by
  induction text generalizing offset with
  | nil => rfl
  | cons b text ih =>
    have hnext : offset + o + 1 = offset + 1 + o := by omega
    simp only [SourceFiles.newlinesFrom, hnext, ih]
    split_ifs <;> rfl

/-- Lines and columns do not depend on the offset of the file. -/
lemma lineColumn_ofText (path text : Text) (o : Nat) (p : Int) :
    (SourceFile.ofText path o text).lineColumn (p + o) =
      (SourceFile.ofText path 0 text).lineColumn p := by
  have hlines : SourceFiles.newlinesFrom o text =
      (SourceFiles.newlinesFrom 0 text).map (· + o) := by
    rw [← newlinesFrom_add, Nat.zero_add]
  have hbefore : ((SourceFiles.newlinesFrom 0 text).map (· + o)).takeWhile
        (fun n : Nat => (n : Int) < p + o) =
      ((SourceFiles.newlinesFrom 0 text).takeWhile fun n : Nat => (n : Int) < p).map (· + o) := by
    rw [List.takeWhile_map]
    congr 2
    funext n
    simp
  simp only [SourceFile.lineColumn, SourceFile.ofText, hlines, hbefore, List.getLast?_map,
    List.length_map]
  cases ((SourceFiles.newlinesFrom 0 text).takeWhile fun n : Nat => (n : Int) < p).getLast? with
  | none => simp
  | some n => simp

/-! ### Counting line feeds -/

/-- The line of a byte of a text: one more than the line feeds before it. -/
def Text.lineAt (t : Text) (k : Nat) : Nat := 1 + (t.take k).count 0x0A

/-- The column of a byte of a text: one more than the bytes that lie between it and the last line
feed before it, or the start of the text. -/
def Text.columnAt (t : Text) (k : Nat) : Nat :=
  1 + ((t.take k).reverse.takeWhile (· != 0x0A)).length

lemma newlinesFrom_append (offset : Nat) (s t : Text) :
    SourceFiles.newlinesFrom offset (s ++ t) =
      SourceFiles.newlinesFrom offset s ++ SourceFiles.newlinesFrom (offset + s.length) t := by
  induction s generalizing offset with
  | nil => rfl
  | cons b s ih =>
    have hnext : offset + (b :: s).length = offset + 1 + s.length := by
      rw [List.length_cons, Nat.add_assoc, Nat.add_comm 1]
    simp only [List.cons_append, SourceFiles.newlinesFrom, ih, hnext]
    split_ifs <;> rfl

lemma bounds_of_mem_newlinesFrom {offset n : Nat} {t : Text}
    (h : n ∈ SourceFiles.newlinesFrom offset t) : offset ≤ n ∧ n < offset + t.length := by
  induction t generalizing offset with
  | nil => cases h
  | cons b t ih =>
    have hstep : n = offset ∨ n ∈ SourceFiles.newlinesFrom (offset + 1) t := by
      rw [SourceFiles.newlinesFrom] at h
      split_ifs at h
      · exact List.mem_cons.1 h
      · exact .inr h
    rw [List.length_cons]
    rcases hstep with rfl | hn
    · constructor <;> omega
    · have := ih hn
      omega

/-- The line feeds before a byte are those of the text in front of it. -/
lemma takeWhile_newlinesFrom {t : Text} {k : Nat} (hk : k ≤ t.length) :
    (SourceFiles.newlinesFrom 0 t).takeWhile (fun n : Nat => (n : Int) < k) =
      SourceFiles.newlinesFrom 0 (t.take k) := by
  have hlen : (t.take k).length = k := List.length_take_of_le hk
  have hbefore : ∀ n ∈ SourceFiles.newlinesFrom 0 (t.take k), decide ((n : Int) < k) = true := by
    intro n hn
    have := (bounds_of_mem_newlinesFrom hn).2
    simpa [hlen] using this
  have hbehind : (SourceFiles.newlinesFrom k (t.drop k)).takeWhile
      (fun n : Nat => (n : Int) < k) = [] := by
    apply List.takeWhile_eq_nil_iff.2
    intro hpos
    have := (bounds_of_mem_newlinesFrom (List.getElem_mem hpos)).1
    simpa using this
  conv_lhs => rw [← List.take_append_drop k t, newlinesFrom_append, hlen, Nat.zero_add]
  rw [List.takeWhile_append_of_pos hbefore, hbehind, List.append_nil]

/-- What is counted from the line feeds of a text is counted from the bytes of the text. -/
lemma newlinesFrom_count (t : Text) :
    (SourceFiles.newlinesFrom 0 t).length = t.count 0x0A ∧
      ((t.length : Int) - match (SourceFiles.newlinesFrom 0 t).getLast? with
        | some n => (n : Int)
        | none   => -1) = 1 + (t.reverse.takeWhile (· != 0x0A)).length := by
  induction t using List.reverseRecOn with
  | nil => exact ⟨rfl, rfl⟩
  | append_singleton t b ih =>
    obtain ⟨hcount, hlast⟩ := ih
    rw [newlinesFrom_append, List.reverse_append, List.length_append, List.count_append, hcount,
      Nat.zero_add]
    by_cases hb : b = 0x0A
    · simp [SourceFiles.newlinesFrom, hb]
    · have hb' : (b == 0x0A) = false := by simpa using hb
      simp only [SourceFiles.newlinesFrom, if_neg hb, List.append_nil, List.reverse_singleton,
        List.cons_append, List.nil_append, List.takeWhile_cons, bne, hb', Bool.not_false, if_true,
        List.length_cons, List.length_append, List.count_cons, List.count_nil, List.length_nil]
      refine ⟨by simp, ?_⟩
      push_cast
      simp only [bne] at hlast
      omega

/-- The line and the column of a byte in a file are those that it has in the text of the file. -/
lemma lineColumn_eq (path : Text) {text : Text} {k : Nat} (o : Nat) (hk : k ≤ text.length) :
    (SourceFile.ofText path o text).lineColumn (k + o : Int) =
      (↑(text.lineAt k), ↑(text.columnAt k)) := by
  have hlen : (text.take k).length = k := List.length_take_of_le hk
  obtain ⟨hcount, hlast⟩ := newlinesFrom_count (text.take k)
  rw [hlen] at hlast
  rw [lineColumn_ofText, SourceFile.lineColumn]
  simp only [SourceFile.ofText, takeWhile_newlinesFrom hk]
  simp only [Text.lineAt, Text.columnAt, ← hcount]
  cases hl : (SourceFiles.newlinesFrom 0 (text.take k)).getLast? with
  | none =>
    rw [hl] at hlast
    rw [List.getLast?_eq_none_iff.1 hl]
    refine Prod.ext rfl ?_
    push_cast
    simp only at hlast ⊢
    omega
  | some n =>
    rw [hl] at hlast
    refine Prod.ext ?_ ?_
    · push_cast
      exact add_comm _ _
    · push_cast
      simpa using hlast

/-- The location of a byte of a file with a text. -/
def Location.ofByte (path text : Text) (k : Nat) : Location :=
  ⟨path, text.lineAt k, text.columnAt k, text.lineAt k, text.columnAt k⟩

/-! ### Files -/

namespace SourceFiles

variable {fs : SourceFiles} {p : Int}

lemma files_add (fs : SourceFiles) (path text : Text) :
    (fs.add path text).files = fs.files ++ [SourceFile.ofText path fs.length text] := rfl

lemma length_add (fs : SourceFiles) (path text : Text) :
    (fs.add path text).length = fs.length + text.length := by
  rw [length, files_add, List.getLast?_append]
  rfl

/-- The location of an offset that is found in a file. -/
def place (file : SourceFile) (p : Int) : Location :=
  ⟨file.path, (file.lineColumn p).1, (file.lineColumn p).2, (file.lineColumn p).1,
    (file.lineColumn p).2⟩

lemma at?_of_le (h₀ : 0 ≤ p) (h : p ≤ fs.length) : fs.at? p = (fs.fileAt? p).map (place · p) := by
  rw [at?, locate?, if_neg (by omega)]
  cases fs.fileAt? p with
  | none => rfl
  | some file => simp [place]

lemma fileAt?_add_of_le (path text : Text) (h : fs.length ≤ p) :
    (fs.add path text).fileAt? p = some (SourceFile.ofText path fs.length text) := by
  have hoff : ((SourceFile.ofText path fs.length text).offset : Int) ≤ p := h
  simp [fileAt?, files_add, hoff]

lemma fileAt?_add_of_lt (path text : Text) (h₀ : 0 ≤ p) (h : p < fs.length) :
    (fs.add path text).fileAt? p = fs.fileAt? p := by
  have hoff : ¬((SourceFile.ofText path fs.length text).offset : Int) ≤ p := not_le.2 h
  have hne : fs.files ≠ [] := by
    intro he
    simp [length, he] at h
    omega
  simp [fileAt?, files_add, hoff, List.head?_append_of_ne_nil _ hne]

/-- The bytes of a file that is added have the lines and columns that they have in its text. -/
lemma at?_add (fs : SourceFiles) (path : Text) {text : Text} {k : Nat} (hk : k ≤ text.length) :
    (fs.add path text).at? (k + fs.length : Int) = some (.ofByte path text k) := by
  have hle : (k + fs.length : Int) ≤ (fs.add path text).length := by
    rw [length_add]
    push_cast
    omega
  rw [at?_of_le (by omega) hle, fileAt?_add_of_le path text (by omega), Option.map_some, place,
    lineColumn_eq path fs.length hk]
  rfl

/-- The offsets of the files that are there keep their locations when a file is added. -/
lemma at?_add_of_lt (path text : Text) (h₀ : 0 ≤ p) (h : p < fs.length) :
    (fs.add path text).at? p = fs.at? p := by
  have hle : p ≤ (fs.add path text).length := by
    rw [length_add]
    push_cast
    omega
  rw [at?_of_le h₀ hle, at?_of_le h₀ h.le, fileAt?_add_of_lt path text h₀ h]

/-- The offsets of a file that is added have the locations that they have in it alone. -/
lemma at?_add_of_le (fs : SourceFiles) (path : Text) {text : Text} (h₀ : 0 ≤ p)
    (h : p < text.length) :
    ∃ l, (fs.add path text).at? (p + fs.length) = some l ∧
      (add {} path text).at? p = some l := by
  refine ⟨place (SourceFile.ofText path 0 text) p, ?_, ?_⟩
  · have hle : p + fs.length ≤ (fs.add path text).length := by
      rw [length_add]
      push_cast
      omega
    rw [at?_of_le (by omega) hle, fileAt?_add_of_le path text (by omega)]
    simp only [place, lineColumn_ofText, Option.map_some]
    rfl
  · have hle : p ≤ (add {} path text).length := by
      rw [length_add]
      push_cast
      omega
    have h0 : ((({} : SourceFiles).length : Nat) : Int) ≤ p := h₀
    rw [at?_of_le h₀ hle, fileAt?_add_of_le path text h0]
    rfl

end SourceFiles

end Frontend
