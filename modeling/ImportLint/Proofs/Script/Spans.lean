import ImportLint.Extractor
import ImportLint.Proofs.Script.Imports
import ImportLint.Proofs.Text.Ascii
import Mathlib.Data.List.TakeWhile

/-!
# The spans of imports

Positions are counted character by character, and the span of an import is meant in bytes: what it
says of the bytes of a source is what the characters say, as no byte of another character is that of
a newline.
-/

namespace ImportLint

/-! ## Lines in bytes -/

namespace Utf8

/-- The byte of a newline. -/
def newline : UInt8 := 10

/-- How many bytes come before the last line. -/
def lineStart (bytes : List UInt8) : Nat := (dropEndWhile (· != newline) bytes).length

/-- Without line breaks the line starts with the text. -/
theorem lineStart_of_notMem {bytes : List UInt8} (h : newline ∉ bytes) : lineStart bytes = 0 := by
  have hdrop : bytes.reverse.dropWhile (· != newline) = [] := by
    rw [List.dropWhile_eq_nil_iff]
    intro b hb
    rw [bne_iff_ne]
    rintro rfl
    exact h (List.mem_reverse.1 hb)
  rw [lineStart, dropEndWhile, hdrop]
  rfl

/-- A line starts after the last line break. -/
theorem lineStart_append_newline (bytes : List UInt8) {line : List UInt8} (h : newline ∉ line) :
    lineStart (bytes ++ newline :: line) = bytes.length + 1 := by
  have hdrop : (bytes ++ newline :: line).reverse.dropWhile (· != newline) =
      newline :: bytes.reverse := by
    rw [List.reverse_append, List.reverse_cons, List.append_assoc]
    refine dropWhile_append_of_ends (fun b hb => ?_) (by simp)
    rw [bne_iff_ne]
    rintro rfl
    exact h (List.mem_reverse.1 hb)
  rw [lineStart, dropEndWhile, hdrop, List.length_reverse, List.length_cons, List.length_reverse]

/-- The bytes of another character are no newlines. -/
theorem newline_notMem_encodeChar {c : Char} (hc : c ≠ '\n') : newline ∉ String.utf8EncodeChar c :=
  fun h => hc ((ascii_mem_encodeChar_iff (by decide)).1 h)

/-- A text that is not empty takes some bytes. -/
theorem size_pos {s : List Char} (h : s ≠ []) : 0 < size s := by
  obtain ⟨c, s, rfl⟩ := List.exists_cons_of_ne_nil h
  exact Nat.lt_of_lt_of_le c.utf8Size_pos (Nat.le_add_right _ _)

/-- A text has as many newlines as its bytes. -/
theorem count_newline_encode (s : List Char) : (encode s).count newline = s.count '\n' := by
  induction s with
  | nil => rfl
  | cons c s ih =>
    rw [encode_cons, List.count_append, ih]
    by_cases hc : c = '\n'
    · subst hc
      rw [List.count_cons_self, Nat.add_comm]
      rfl
    · rw [List.count_eq_zero.2 (newline_notMem_encodeChar hc), Nat.zero_add,
        List.count_cons_of_ne hc]

/-- A text without line breaks has none in its bytes. -/
theorem newline_notMem_encode {s : List Char} (h : '\n' ∉ s) : newline ∉ encode s := by
  rw [← List.count_eq_zero, count_newline_encode]
  exact List.count_eq_zero.2 h

end Utf8

/-! ## Lines in positions -/

namespace Position

/-- A text takes a position on by as many lines as it has line breaks. -/
theorem line_after (p : Position) (s : List Char) : (p.after s).line = p.line + s.count '\n' := by
  induction s generalizing p with
  | nil => rfl
  | cons c s ih =>
    rw [after_cons, ih, next]
    split
    · next hc =>
      show p.line + 1 + _ = _
      rw [hc, List.count_cons_self]
      omega
    · next hc => rw [List.count_cons_of_ne hc]

/-- A text without line breaks takes a position on by its bytes, in the same line. -/
theorem column_after_of_notMem (p : Position) {s : List Char} (h : '\n' ∉ s) :
    (p.after s).column = p.column + Utf8.size s := by
  induction s generalizing p with
  | nil => rfl
  | cons c s ih =>
    obtain ⟨hc, hs⟩ : '\n' ≠ c ∧ '\n' ∉ s := by simpa using h
    rw [after_cons, ih _ hs, next, if_neg (Ne.symm hc), Utf8.size_cons]
    exact Nat.add_assoc ..

/-- Columns are counted from the last newline. -/
theorem column_after_newline (p : Position) (s : List Char) {line : List Char} (h : '\n' ∉ line) :
    (p.after (s ++ '\n' :: line)).column = Utf8.size line := by
  rw [after_append, after_cons, column_after_of_notMem _ h, next, if_pos rfl]
  exact Nat.zero_add _

/-- The column of a place is how far it is from the start of its line. -/
theorem lineStart_add_column (s : List Char) :
    Utf8.lineStart (Utf8.encode s) + (({} : Position).after s).column =
      (({} : Position).after s).offset := by
  rw [offset_after]
  by_cases h : '\n' ∈ s
  · -- The text up to the last newline, and the line after it.
    obtain ⟨line, before, hsplit, hline⟩ := List.eq_append_cons_of_mem (List.mem_reverse.2 h)
    obtain rfl : s = before.reverse ++ '\n' :: line.reverse := by
      rw [← List.reverse_reverse s, hsplit]
      simp
    have hline' : '\n' ∉ line.reverse := by simpa using hline
    have hnewline : Utf8.encode ('\n' :: line.reverse) = Utf8.newline :: Utf8.encode line.reverse :=
      rfl
    rw [column_after_newline _ _ hline', Utf8.encode_append, hnewline,
      Utf8.lineStart_append_newline _ (Utf8.newline_notMem_encode hline'),
      Utf8.length_encode, Utf8.size_append, Utf8.size_cons]
    show _ = 0 + (_ + (1 + _))
    omega
  · rw [column_after_of_notMem _ h, Utf8.lineStart_of_notMem (Utf8.newline_notMem_encode h)]
    exact Nat.zero_add _

end Position

/-! ## Spans in bytes -/

namespace Import

/-- An import **spans** some of the bytes of a source: they are in the source and hold the
specifier, and the line and the column of the import are those of the first. -/
structure IsSpanIn (i : Import) (bytes : List UInt8) : Prop where
  within : i.offset + i.width ≤ bytes.length
  specifier : Utf8.encode i.specifier <:+: (bytes.drop i.offset).take i.width
  line : i.line = 1 + (bytes.take i.offset).count Utf8.newline
  column : Utf8.lineStart (bytes.take i.offset) + i.column = i.offset

/-- What covers a statement of a source spans its bytes. -/
theorem Covers.isSpanIn {i : Import} {before statement : List Char}
    (h : i.Covers (({} : Position).after before) statement) (after : List Char) :
    i.IsSpanIn (Utf8.encode (before ++ (statement ++ after))) := by
  obtain ⟨hoffset, hline, hcolumn⟩ := h.standsAt
  have hplace : i.offset = (Utf8.encode before).length := by
    rw [hoffset, Position.offset_after, Utf8.length_encode]
    exact Nat.zero_add _
  have hwidth : i.width = (Utf8.encode statement).length := by
    rw [h.width, Utf8.length_encode]
  have hbefore : (Utf8.encode (before ++ (statement ++ after))).take i.offset =
      Utf8.encode before := by
    rw [Utf8.encode_append, hplace, List.take_left]
  constructor
  · rw [hplace, hwidth, Utf8.encode_append, Utf8.encode_append,
      List.length_append, List.length_append]
    omega
  · rw [Utf8.encode_append, hplace, List.drop_left, Utf8.encode_append, hwidth, List.take_left]
    obtain ⟨front, back, hstatement⟩ := h.specifier
    rw [← hstatement, Utf8.encode_append, Utf8.encode_append]
    exact List.infix_append ..
  · rw [hbefore, hline, Position.line_after, Utf8.count_newline_encode]
    exact (Nat.add_comm ..).trans (congrArg (1 + ·) (Nat.zero_add _))
  · rw [hbefore, hcolumn, hoffset]
    exact Position.lineStart_add_column before

end Import

/-- **The spans of imports.** The imports of a source are in its order and do not overlap, and each
spans some of its bytes. -/
theorem extract_spans (source : List Char) (extension : String) :
    ∃ x, Extractor.script.extract source extension = some x ∧ x.imports.Pairwise Import.EndsBefore ∧
      ∀ i ∈ x.imports, 0 < i.width ∧ i.IsSpanIn (Utf8.encode source) := by
  have horder := Script.areInOrder_extract source (Script.Dialect.ofExtension extension)
  refine ⟨_, rfl, horder.pairwise.imp And.right, fun i hi => ?_⟩
  obtain ⟨before, statement, after, hsource, hcovers⟩ := horder.within i hi
  refine ⟨?_, hsource ▸ hcovers.isSpanIn after⟩
  rw [hcovers.width]
  exact Utf8.size_pos hcovers.ne_nil

end ImportLint
