import ImportLint.Proofs.Script.Reading
import ImportLint.Script.Extract
import Mathlib.Data.List.Basic

/-!
# Where the imports of a source stand

The walk collects the import statements that recursion on the tree finds. An import statement of a
source starts with a keyword, so its text is not empty and each further one stands after it: where
it ends or later, and on a later line or further right on the same line.
-/

namespace ImportLint

/-! ## Positions -/

namespace Position

/-- A position **precedes** another: fewer bytes come before it, and it is on an earlier line or
further left. -/
def Precedes (p q : Position) : Prop :=
  p.offset < q.offset ∧ (p.line < q.line ∨ p.line = q.line ∧ p.column < q.column)

/-- Preceding is transitive. -/
theorem Precedes.trans {p q r : Position} (hpq : p.Precedes q) (hqr : q.Precedes r) :
    p.Precedes r := by
  obtain ⟨hoffset, hpq⟩ := hpq
  obtain ⟨hoffset', hqr⟩ := hqr
  constructor
  · exact Nat.lt_trans hoffset hoffset'
  · omega

/-- A position precedes the one after a character. -/
theorem precedes_next (p : Position) (c : Char) : p.Precedes (p.next c) := by
  have hsize : 0 < c.utf8Size := c.utf8Size_pos
  unfold next
  split
  · exact ⟨Nat.lt_succ_self _, .inl (Nat.lt_succ_self _)⟩
  · exact ⟨Nat.lt_add_of_pos_right hsize, .inr ⟨rfl, Nat.lt_add_of_pos_right hsize⟩⟩

/-- A position precedes those after more text. -/
theorem precedes_after (p : Position) {s : List Char} (hs : s ≠ []) : p.Precedes (p.after s) := by
  induction s generalizing p with
  | nil => exact absurd rfl hs
  | cons c s ih =>
    rw [after_cons]
    by_cases hnil : s = []
    · rw [hnil, after_nil]
      exact precedes_next p c
    · exact (precedes_next p c).trans (ih (p.next c) hnil)

end Position

/-! ## Imports in order -/

namespace Import

/-- An import **precedes** another by where the two start. -/
def Precedes (i j : Import) : Prop :=
  i.offset < j.offset ∧ (i.line < j.line ∨ i.line = j.line ∧ i.column < j.column)

/-- An import **stands at** a position, whose lines count from zero. -/
def StandsAt (i : Import) (p : Position) : Prop :=
  i.offset = p.offset ∧ i.line = p.line + 1 ∧ i.column = p.column

/-- An import precedes another if its position does. -/
theorem StandsAt.precedes {i j : Import} {p q : Position} (hi : i.StandsAt p) (hj : j.StandsAt q)
    (hpq : p.Precedes q) : i.Precedes j := by
  obtain ⟨hoffset, hline, hcolumn⟩ := hi
  obtain ⟨hoffset', hline', hcolumn'⟩ := hj
  obtain ⟨hlt, hplace⟩ := hpq
  constructor <;> omega

/-- An import **covers** a statement at a position: it stands there, is as wide, and its specifier
is a part of it that can name a module. -/
structure Covers (i : Import) (p : Position) (statement : List Char) : Prop where
  standsAt : i.StandsAt p
  width : i.width = Utf8.size statement
  specifier : i.specifier <:+: statement
  admits : Script.Terminal.specifier.admits i.specifier = true
  ne_nil : statement ≠ []

/-- An import **ends before** another one. -/
def EndsBefore (i j : Import) : Prop := i.offset + i.width ≤ j.offset

/-- An import covers its statement up to where any further one stands. -/
theorem Covers.precedes {i j : Import} {p : Position} {statement between : List Char}
    (hi : i.Covers p statement) (hj : j.StandsAt ((p.after statement).after between)) :
    i.Precedes j ∧ i.EndsBefore j := by
  constructor
  · rw [← Position.after_append] at hj
    exact hi.standsAt.precedes hj
      (p.precedes_after (List.append_ne_nil_of_left_ne_nil hi.ne_nil between))
  · obtain ⟨hoffset, -, -⟩ := hj
    obtain ⟨hoffset', -, -⟩ := hi.standsAt
    rw [Position.offset_after, Position.offset_after] at hoffset
    rw [EndsBefore, hi.width]
    omega

end Import

/-- Imports are **in order** in a text at a position: each covers a part of the text, and ends
before the ones that come after it. -/
structure AreInOrder (is : List Import) (p : Position) (s : List Char) : Prop where
  within : ∀ i ∈ is, ∃ before statement after, s = before ++ (statement ++ after) ∧
    i.Covers (p.after before) statement
  pairwise : is.Pairwise fun i j => i.Precedes j ∧ i.EndsBefore j

namespace AreInOrder

variable {is js : List Import} {p : Position} {s s' : List Char}

/-- No imports are in order in any text. -/
theorem nil : AreInOrder [] p s := ⟨by simp, .nil⟩

/-- A single import is in order in the text it covers. -/
theorem singleton {i : Import} (hi : i.Covers p s) : AreInOrder [i] p s := by
  refine ⟨?_, List.pairwise_singleton ..⟩
  rw [List.forall_mem_singleton]
  exact ⟨[], s, [], (List.append_nil s).symm, hi⟩

/-- Imports in one text and those in the text after it are in order. -/
theorem append (h : AreInOrder is p s) (h' : AreInOrder js (p.after s) s') :
    AreInOrder (is ++ js) p (s ++ s') := by
  constructor
  · rw [List.forall_mem_append]
    constructor
    · intro i hi
      obtain ⟨before, statement, after, rfl, hi⟩ := h.within i hi
      exact ⟨before, statement, after ++ s', by simp only [List.append_assoc], hi⟩
    · intro j hj
      obtain ⟨before, statement, after, rfl, hj⟩ := h'.within j hj
      refine ⟨s ++ before, statement, after, (List.append_assoc ..).symm, ?_⟩
      rwa [Position.after_append]
  · rw [List.pairwise_append]
    refine ⟨h.pairwise, h'.pairwise, ?_⟩
    intro i hi j hj
    obtain ⟨before, statement, after, rfl, hi⟩ := h.within i hi
    obtain ⟨before', statement', -, -, hj⟩ := h'.within j hj
    -- What comes between the two is the rest of the first text and some of the second.
    have hstands := hj.standsAt
    rw [Position.after_append, Position.after_append, ← Position.after_append] at hstands
    exact hi.precedes hstands

end AreInOrder

namespace Script

open Script.Tree

variable {d : Dialect}

/-! ## Import statements -/

/-- An import statement starts with its keyword. -/
theorem exists_rule_importStatement :
    ∃ f, rule .importStatement = .both (.token (.keyword "import".toList)) f := ⟨_, rfl⟩

/-- A row that starts with a token has a token of the kind in it, the text of which the kind
admits. -/
theorem exists_token_of_haveForm {t : Terminal} {f : Form} {ts : List Tree}
    (h : haveForm d (.both (.token t) f) ts = true) :
    ∃ text, .token t text ∈ ts ∧ t.admits text = true := by
  obtain ⟨rest, hrest, -⟩ := List.any_eq_true.1 h
  -- The token is what the form takes off first, after what is loose.
  rw [Form.strip] at hrest
  obtain ⟨mid, hmid, -⟩ := List.mem_flatMap.1 hrest
  rw [Form.strip] at hmid
  split at hmid
  · next t' text after hdrop =>
    split at hmid
    · next hadmits =>
      rw [Bool.and_eq_true, decide_eq_true_eq] at hadmits
      obtain ⟨rfl, hadmits⟩ := hadmits
      have hmem : Tree.token t text ∈ ts.dropWhile Tree.isLoose := hdrop ▸ List.mem_cons_self
      exact ⟨text, (List.dropWhile_sublist _).subset hmem, hadmits⟩
    · cases hmid
  · cases hmid

/-- Trees have a text if one of them has. -/
theorem textOf_ne_nil {t : Tree} {ts : List Tree} (ht : t ∈ ts) (htext : t.text ≠ []) :
    textOf ts ≠ [] := by
  induction ts with
  | nil => cases ht
  | cons u ts ih =>
    rw [textOf_cons]
    rcases List.mem_cons.1 ht with rfl | ht
    · exact List.append_ne_nil_of_left_ne_nil htext _
    · exact List.append_ne_nil_of_right_ne_nil _ (ih ht)

/-- An import statement that keeps to the grammar is not empty, as it starts with its keyword. -/
theorem text_ne_nil_of_conforms {ts : List Tree}
    (h : (node .importStatement ts).conforms d = true) : (node .importStatement ts).text ≠ [] := by
  rw [conforms, Bool.and_eq_true] at h
  obtain ⟨f, hf⟩ := exists_rule_importStatement
  rw [hf] at h
  obtain ⟨text, hmem, hadmits⟩ := exists_token_of_haveForm h.1
  have htext : text ≠ [] := by
    rintro rfl
    cases hadmits
  rw [text_node]
  exact textOf_ne_nil hmem htext

/-- The text of a tree is part of the text of the trees it stands among. -/
theorem isInfix_textOf {t : Tree} {ts : List Tree} (ht : t ∈ ts) : t.text <:+: textOf ts := by
  induction ts with
  | nil => cases ht
  | cons u ts ih =>
    rw [textOf_cons]
    rcases List.mem_cons.1 ht with rfl | ht
    · exact (List.prefix_append _ _).isInfix
    · exact (ih ht).trans (List.suffix_append _ _).isInfix

/-- The module specifier of a statement is one of its tokens. -/
theorem token_mem_of_specifier? {c : Construct} {ts : List Tree} {text : List Char}
    (h : (node c ts).specifier? = some text) : .token .specifier text ∈ ts := by
  obtain ⟨t, ht, htext⟩ := List.exists_of_findSome?_eq_some h
  split at htext
  · obtain rfl := Option.some.inj htext
    exact ht
  · cases htext

/-- What is imported by a statement covers the statement. -/
theorem covers_of_import? {ts : List Tree} {p : Position} {i : Import}
    (hconforms : (node .importStatement ts).conforms d = true)
    (h : (node .importStatement ts).import? p = some i) :
    i.Covers p (node .importStatement ts).text := by
  obtain ⟨s, hs, rfl⟩ := Option.map_eq_some_iff.1 h
  have htoken := token_mem_of_specifier? hs
  have hform := hconforms
  rw [conforms, Bool.and_eq_true] at hform
  exact {
    standsAt := ⟨rfl, rfl, rfl⟩
    width := rfl
    specifier := isInfix_textOf htoken
    admits := admits_of_haveForm hform.1 htoken
    ne_nil := text_ne_nil_of_conforms hconforms }

/-- Only import statements are imports. -/
theorem eq_importStatement_of_isImport {c : Construct} {ts : List Tree}
    (h : (node c ts).isImport = true) : c = .importStatement := by
  cases c <;> first | rfl | cases h

/-- The imports of a node that is none itself are those of its children. -/
theorem imports_of_not_isImport {c : Construct} {ts : List Tree}
    (h : (node c ts).isImport = false) (p : Position) : (node c ts).imports p = importsOf p ts := by
  rw [imports]
  rintro rfl
  cases h

mutual

/-- The imports of a tree are in order, given that its import statements have texts. -/
theorem areInOrder_imports (t : Tree) (p : Position) (h : t.conforms d = true) :
    AreInOrder (t.imports p) p t.text := by
  cases t with
  | gap | stray | token => exact .nil
  | node c ts =>
    cases himport : (node c ts).isImport with
    | true =>
      obtain rfl := eq_importStatement_of_isImport himport
      rw [imports]
      cases hi : (node .importStatement ts).import? p with
      | none => exact .nil
      | some i => exact .singleton (covers_of_import? h hi)
    | false =>
      rw [imports_of_not_isImport himport]
      rw [conforms, Bool.and_eq_true] at h
      exact areInOrder_importsOf ts p h.2

/-- The imports of a row of trees are in order. -/
theorem areInOrder_importsOf (ts : List Tree) (p : Position) (h : allConform d ts = true) :
    AreInOrder (importsOf p ts) p (textOf ts) := by
  cases ts with
  | nil => exact .nil
  | cons t ts =>
    rw [allConform, Bool.and_eq_true] at h
    exact (areInOrder_imports t p h.1).append (areInOrder_importsOf ts _ h.2)

end

/-! ## The walk -/

namespace Cursor

/-- The imports in what follows beside some constructs. -/
def importsAbove : List Step → List Import
  | [] => []
  | s :: above => importsOf (s.position.after s.tree.text) s.later ++ importsAbove above

/-- The imports in all that follows the focus. -/
def importsBeyond (c : Cursor) : List Import := importsAbove (c.focus :: c.above)

variable {c c' : Cursor}

/-- What follows the focus starts with its next sibling. -/
theorem importsBeyond_of_onward (h : c.onward? = some c') :
    c.importsBeyond = c'.focus.tree.imports c'.focus.position ++ c'.importsBeyond := by
  unfold onward? at h
  split at h
  · cases h
  · next t ts hlater =>
    obtain rfl := Option.some.inj h
    rw [importsBeyond, importsAbove, hlater, importsOf, List.append_assoc]
    rfl

/-- What follows a last child is what follows its parent. -/
theorem importsBeyond_of_up (hlast : c.onward? = none) (h : c.up? = some c') :
    c.importsBeyond = c'.importsBeyond := by
  unfold onward? at hlast
  unfold up? at h
  split at hlast
  · next hlater =>
    split at h
    · cases h
    · next s above habove =>
      obtain rfl := Option.some.inj h
      rw [importsBeyond, importsAbove, hlater, habove, importsOf, List.nil_append]
      rfl
  · cases hlast

/-- Nothing follows where there is neither a sibling nor a parent to step to. -/
theorem importsBeyond_of_end (hlast : c.onward? = none) (h : c.up? = none) :
    c.importsBeyond = [] := by
  unfold onward? at hlast
  unfold up? at h
  split at hlast
  · next hlater =>
    split at h
    · next habove =>
      rw [importsBeyond, importsAbove, hlater, habove]
      rfl
    · cases h
  · cases hlast

/-- Stepping down into a node that is no import keeps the imports that are left. -/
theorem imports_of_down (himport : c.focus.tree.isImport = false) (h : c.down? = some c') :
    c.focus.tree.imports c.focus.position ++ c.importsBeyond =
      c'.focus.tree.imports c'.focus.position ++ c'.importsBeyond := by
  unfold down? at h
  split at h
  · cases h
  · next t ts hchildren =>
    obtain rfl := Option.some.inj h
    cases htree : c.focus.tree with
    | node k us =>
      rw [htree] at himport hchildren
      obtain rfl : us = t :: ts := hchildren
      rw [imports_of_not_isImport himport, importsOf, List.append_assoc]
      rfl
    | _ => rw [htree] at hchildren; cases hchildren

/-- A node without children that is no import has no imports. -/
theorem imports_of_no_down (himport : c.focus.tree.isImport = false) (h : c.down? = none) :
    c.focus.tree.imports c.focus.position = [] := by
  unfold down? at h
  split at h
  · next hchildren =>
    cases htree : c.focus.tree with
    | node k us =>
      rw [htree] at himport hchildren
      obtain rfl : us = [] := hchildren
      rw [imports_of_not_isImport himport]
      rfl
    | _ => rfl
  · cases h

/-- An import statement has at most one import: its own. -/
theorem imports_of_isImport (himport : c.focus.tree.isImport = true) :
    c.focus.tree.imports c.focus.position =
      (c.focus.tree.import? c.focus.position).toList := by
  cases htree : c.focus.tree with
  | node k us =>
    rw [htree] at himport
    obtain rfl := eq_importStatement_of_isImport himport
    rw [imports]
  | _ => rw [htree] at himport; cases himport

/-- **The walk** collects the imports of the focus, unless it has been dealt with, and of all that
follows. -/
theorem walk_eq (dealt : Bool) (c : Cursor) (found : List Import) : c.walk dealt found =
    found.reverse ++
      ((if dealt then [] else c.focus.tree.imports c.focus.position) ++ c.importsBeyond) := by
  -- One case for each move: on, up and out of the tree from what has been dealt with; past an
  -- import, down and past a tree without parts from what has not.
  fun_induction walk dealt c found with
  | case1 c found c' hon ih => rw [ih, importsBeyond_of_onward hon]; simp
  | case2 c found hlast c' hup ih => rw [ih, importsBeyond_of_up hlast hup]; simp
  | case3 c found hlast hend => rw [importsBeyond_of_end hlast hend]; simp
  | case4 c found himport ih =>
    rw [ih, imports_of_isImport himport]
    cases c.focus.tree.import? c.focus.position <;> simp
  | case5 c found himport c' hdown ih =>
    rw [Bool.not_eq_true] at himport
    rw [ih, if_neg Bool.false_ne_true, if_neg Bool.false_ne_true, imports_of_down himport hdown]
  | case6 c found himport hdown ih =>
    rw [Bool.not_eq_true] at himport
    rw [ih, if_neg Bool.false_ne_true, imports_of_no_down himport hdown]
    simp

end Cursor

/-- The walk over a tree collects what recursion on the tree does. -/
theorem collectImports_eq_imports (t : Tree) : collectImports t = t.imports {} := by
  rw [collectImports, Cursor.walk_eq, Cursor.importsBeyond_of_end rfl rfl, List.append_nil]
  rfl

/-! ## Sources -/

/-- The imports of a source are in order in it. -/
theorem areInOrder_extract (source : List Char) (d : Dialect) :
    AreInOrder (Script.extract source d).imports {} source := by
  obtain ⟨ts, hread, htext, hconform⟩ := exists_read_eq d source
  have himports : (Script.extract source d).imports = importsOf {} ts := by
    show collectImports (read d source) = _
    rw [collectImports_eq_imports, hread, imports_of_not_isImport rfl]
  rw [himports, ← htext]
  exact areInOrder_importsOf ts {} hconform

/-- **The imports of a source** stand one after the other. -/
theorem pairwise_imports_extract (source : List Char) (d : Dialect) :
    (Script.extract source d).imports.Pairwise Import.Precedes :=
  (areInOrder_extract source d).pairwise.imp And.left

end Script

end ImportLint
