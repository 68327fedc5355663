import ImportLint.Proofs.Script.Spans

/-!
# Sources further down

Lines without code may be put in front of a source. Nothing is read differently then, and the
imports are the same ones further down: by the bytes and the number of these lines, each in its
column. So it does not matter to a statement where in a file it starts.
-/

namespace ImportLint

/-- Lines put together, each with a newline at its end. -/
def unlines (ls : List (List Char)) : List Char := ls.flatMap (· ++ ['\n'])

/-- The first line ends in a line break and is followed by the others. -/
theorem unlines_cons (l : List Char) (ls : List (List Char)) :
    unlines (l :: ls) = l ++ '\n' :: unlines ls := by
  rw [unlines, List.flatMap_cons, List.append_assoc]
  rfl

/-! ## Positions further down -/

namespace Position

/-- The place so many bytes and lines **further down**, in the same column. -/
def shift (bytes lines : Nat) (p : Position) : Position :=
  ⟨p.offset + bytes, p.line + lines, p.column⟩

/-- Shifts add up. -/
theorem shift_shift (bytes lines bytes' lines' : Nat) (p : Position) :
    (p.shift bytes lines).shift bytes' lines' = p.shift (bytes + bytes') (lines + lines') := by
  simp only [shift, Nat.add_assoc]

variable (bytes lines : Nat)

/-- A character moves on a shifted position as it does any other. -/
theorem next_shift (p : Position) (c : Char) :
    (p.shift bytes lines).next c = (p.next c).shift bytes lines := by
  unfold next
  split
  · show Position.mk _ _ _ = Position.mk _ _ _
    simp only [shift, Nat.add_right_comm]
  · simp only [shift, Nat.add_right_comm]

/-- A text moves on a shifted position as it does any other. -/
theorem after_shift (p : Position) (s : List Char) :
    (p.shift bytes lines).after s = (p.after s).shift bytes lines := by
  induction s generalizing p with
  | nil => rfl
  | cons c s ih => rw [after_cons, after_cons, next_shift, ih]

/-- Lines lead from the start of a line to the start of another one. -/
theorem after_unlines {ls : List (List Char)} (hls : ∀ l ∈ ls, '\n' ∉ l) {p : Position}
    (hp : p.column = 0) : p.after (unlines ls) = p.shift (Utf8.size (unlines ls)) ls.length := by
  induction ls generalizing p with
  | nil => rfl
  | cons l ls ih =>
    obtain ⟨hl, hls⟩ := List.forall_mem_cons.1 hls
    -- The newline starts the line that the others lead on from.
    have hnext : (p.after l).next '\n' = p.shift (Utf8.size l + 1) 1 := by
      rw [next, if_pos rfl, offset_after, line_after, List.count_eq_zero.2 hl, shift, hp]
      rfl
    have hsize : Utf8.size (l ++ '\n' :: unlines ls) = Utf8.size (unlines ls) +
        (Utf8.size l + 1) := by
      have hnewline : '\n'.utf8Size = 1 := rfl
      rw [Utf8.size_append, Utf8.size_cons, hnewline]
      omega
    rw [unlines_cons, after_append, after_cons, hnext, after_shift, ih hls hp, shift_shift, hsize]
    rfl

end Position

/-! ## Imports further down -/

/-- The import so many bytes and lines **further down**, in the same column. -/
def Import.shift (bytes lines : Nat) (i : Import) : Import :=
  { i with offset := i.offset + bytes, line := i.line + lines }

namespace Script

namespace Tree

variable (bytes lines : Nat)

/-- The import of a tree is shifted with its position. -/
theorem import?_shift (t : Tree) (p : Position) :
    t.import? (p.shift bytes lines) = (t.import? p).map (Import.shift bytes lines) := by
  rw [import?, import?, Option.map_map]
  congr 1
  funext s
  simp only [Position.shift, Function.comp, Import.shift, Nat.add_right_comm]

mutual

/-- The imports of a tree further down are those of the tree. -/
theorem imports_shift (t : Tree) (p : Position) :
    t.imports (p.shift bytes lines) = (t.imports p).map (Import.shift bytes lines) := by
  cases t with
  | gap | stray | token => rfl
  | node c ts =>
    cases himport : (node c ts).isImport with
    | true =>
      obtain rfl := eq_importStatement_of_isImport himport
      rw [imports, imports, import?_shift]
      cases (node .importStatement ts).import? p <;> rfl
    | false =>
      rw [imports_of_not_isImport himport, imports_of_not_isImport himport]
      exact importsOf_shift ts p

/-- The imports of a row of trees further down are those of the row. -/
theorem importsOf_shift (ts : List Tree) (p : Position) :
    importsOf (p.shift bytes lines) ts = (importsOf p ts).map (Import.shift bytes lines) := by
  cases ts with
  | nil => rfl
  | cons t ts =>
    rw [importsOf, importsOf, List.map_append, Position.after_shift,
      imports_shift t, importsOf_shift ts]

end

/-- The gap in front of a program counts for the place of what follows, and for nothing else. -/
theorem extraction_consText_gap (g : List Char) (ts : List Tree) :
    (node .program (consText .gap g ts)).extraction =
      ⟨importsOf (({} : Position).after g) ts, someStray ts⟩ := by
  rw [extraction, collectImports_eq_imports, imports_of_not_isImport rfl, hasStray]
  unfold consText
  split
  · next h =>
    rw [List.isEmpty_iff.1 h]
    rfl
  · rfl

end Tree

/-! ## Lines without code -/

/-- A line, given without its newline, is **idle** if there is nothing in it but blanks and comments
that run up to the next line end. A carriage return and a line separator end a comment, but they do
not end the line. -/
inductive IsIdle : List Char → Prop
  | nil : IsIdle []
  | blank {c : Char} {rest : List Char} (hblank : isBlank c = true) (hnewline : c ≠ '\n')
      (hrest : IsIdle rest) :
    IsIdle (c :: rest)
  | comment {text rest : List Char} (htext : ∀ c ∈ text, isLineEnd c = false)
      (hend : ∀ c ∈ rest.head?, isLineEnd c = true)
      (hrest : IsIdle rest) : IsIdle ('/' :: '/' :: (text ++ rest))

/-- There is no line break in an idle line. -/
theorem IsIdle.newline_notMem {line : List Char} (h : IsIdle line) : '\n' ∉ line := by
  induction h with
  | nil => exact List.not_mem_nil
  | blank _ hnewline _ ih => simp [hnewline.symm, ih]
  | comment htext _ _ ih =>
    have : '\n' ∉ _ := fun h => Bool.false_ne_true ((htext '\n' h).symm.trans rfl)
    simp [ih, this]

/-- Line ends are blanks. -/
theorem isBlank_of_isLineEnd {c : Char} (h : isLineEnd c = true) : isBlank c = true := by
  simp only [isLineEnd, Bool.or_eq_true, beq_iff_eq] at h
  rcases h with ((rfl | rfl) | h) | h <;> simp [isBlank, *] <;> rfl

/-- A blank belongs to a gap. -/
theorem gapFrom_blank {c : Char} (hc : isBlank c = true) (s : List Char) :
    gapFrom .open (c :: s) = Split.cons c (gapFrom .open s) := by
  have hslash : c ≠ '/' := by
    rintro rfl
    cases hc
  conv => lhs; unfold gapFrom
  split <;> simp_all

/-- Two slashes start a comment, which belongs to a gap. -/
theorem gapFrom_comment (s : List Char) :
    gapFrom .open ('/' :: '/' :: s) = Split.cons '/' (Split.cons '/' (gapFrom .line s)) := by
  conv => lhs; unfold gapFrom
  rfl

/-- A comment goes on up to the end of its line. -/
theorem gapFrom_line_cons (c : Char) (s : List Char) : gapFrom .line (c :: s) =
    if isLineEnd c = true then Split.cons c (gapFrom .open s) else
      Split.cons c (gapFrom .line s) := by
  conv => lhs; unfold gapFrom
  split <;> simp_all

/-- A comment goes on up to the next line end. -/
theorem gapFrom_line_append {text : List Char} (htext : ∀ c ∈ text, isLineEnd c = false)
    (s : List Char) :
    gapFrom .line (text ++ s) = (text ++ (gapFrom .line s).1, (gapFrom .line s).2) := by
  induction text with
  | nil => rfl
  | cons c text ih =>
    obtain ⟨hc, htext⟩ := List.forall_mem_cons.1 htext
    rw [List.cons_append, gapFrom_line_cons, hc, if_neg Bool.false_ne_true, ih htext]
    rfl

/-- A line end is outside the comment that it ends. -/
theorem gapFrom_lineEnd {c : Char} (hc : isLineEnd c = true) (s : List Char) :
    gapFrom .line (c :: s) = gapFrom .open (c :: s) := by
  rw [gapFrom_line_cons, if_pos hc, gapFrom_blank (isBlank_of_isLineEnd hc)]

/-- The gap of a source goes on with an idle line in front of it. -/
theorem IsIdle.gapFrom_append {line : List Char} (h : IsIdle line) (s : List Char) :
    gapFrom .open (line ++ '\n' :: s) =
      (line ++ '\n' :: (gapFrom .open s).1, (gapFrom .open s).2) := by
  induction h with
  | nil => exact gapFrom_blank rfl s
  | blank hblank _ _ ih =>
    rw [List.cons_append, gapFrom_blank hblank, ih]
    rfl
  | @comment text rest htext hend _ ih =>
    have hleave : gapFrom .line (rest ++ '\n' :: s) = gapFrom .open (rest ++ '\n' :: s) := by
      cases rest with
      | nil => exact gapFrom_lineEnd rfl s
      | cons c rest => exact gapFrom_lineEnd (hend c rfl) _
    rw [List.cons_append, List.cons_append, gapFrom_comment, List.append_assoc,
      gapFrom_line_append htext, hleave, ih, List.cons_append, List.cons_append, List.append_assoc]
    rfl

/-- Idle lines in front of a text are part of its gap. -/
theorem gap_unlines_append {ls : List (List Char)} (hls : ∀ l ∈ ls, IsIdle l) (s : List Char) :
    gap (unlines ls ++ s) = (unlines ls ++ (gap s).1, (gap s).2) := by
  induction ls with
  | nil => rfl
  | cons l ls ih =>
    obtain ⟨hl, hls⟩ := List.forall_mem_cons.1 hls
    rw [unlines_cons, List.append_assoc, List.cons_append, gap, hl.gapFrom_append, ← gap,
      ih hls, List.append_assoc]
    rfl

end Script

/-- **Sources further down.** A source without errors has none with lines in front of it that are
blank or a comment, and its imports are the same then, further down by these lines. -/
theorem extract_shift {source : List Char} {extension : String} {x : Extraction}
    (hextract : Extractor.script.extract source extension = some x) (hclean : x.hasErrors = false)
    {ls : List (List Char)} (hls : ∀ l ∈ ls, Script.IsIdle l) :
    Extractor.script.extract (unlines ls ++ source) extension =
      some ⟨x.imports.map (Import.shift (Utf8.size (unlines ls)) ls.length), false⟩ := by
  obtain rfl := Option.some.inj hextract
  obtain ⟨ts, hread, hread'⟩ :=
    Script.exists_read_append (Script.gap_unlines_append hls source) hclean
  have hstart : ({} : Position).after (unlines ls) =
      Position.shift (Utf8.size (unlines ls)) ls.length {} :=
    Position.after_unlines (fun l hl => (hls l hl).newline_notMem) rfl
  rw [Script.extract, hread, Script.Tree.extraction_consText_gap] at hclean ⊢
  show some (Script.Tree.extraction (Script.read _ _)) = _
  rw [hread', Script.Tree.extraction_consText_gap, Position.after_append, hstart,
    Position.after_shift, Script.Tree.importsOf_shift,
    show Script.Tree.someStray ts = false from hclean]

/-- A comment of more bytes than characters, with an import in it, and a line of blanks. -/
theorem extract_shift_comment : Extractor.script.extract
    (unlines ['/' :: '/' :: (" é import 'y';".toList ++ ['\r']), [' ', '\t']] ++
      "import 'x';\n  import z from 'z'".toList)
    ".ts" = some ⟨[⟨"'x'".toList, 22, 11, 3, 0⟩, ⟨"'z'".toList, 36, 17, 4, 2⟩], false⟩ := by
  have hextract : Extractor.script.extract "import 'x';\n  import z from 'z'".toList ".ts" =
      some ⟨[⟨"'x'".toList, 0, 11, 1, 0⟩, ⟨"'z'".toList, 14, 17, 2, 2⟩], false⟩ := by
    decide +kernel
  have hcomment : Script.IsIdle ('/' :: '/' :: (" é import 'y';".toList ++ ['\r'])) :=
    .comment (by simp [Script.isLineEnd]) (by simp [Script.isLineEnd]) (.blank rfl (by decide) .nil)
  have hblanks : Script.IsIdle [' ', '\t'] := .blank rfl (by decide) (.blank rfl (by decide) .nil)
  exact extract_shift hextract rfl
    (List.forall_mem_cons.2 ⟨hcomment, List.forall_mem_singleton.2 hblanks⟩)

end ImportLint
