import ImportLint.Proofs.Script.Imports

/-!
# What a walk over a tree finds

The walk is a loop that makes one move in each round. Every round leaves it less to do, so it ends,
on a tree of any shape. What it has found then are the import statements of the tree that name a
module and are inside no other import statement, each of them once and in the order in which they
start. A part of a tree is given by its address, and the order of addresses is the order in which
the parts start, each before what is in it.
-/

namespace ImportLint.Script

/-! ## Rounds -/

/-- A **stage** of a walk: where it stands, whether what is there has been dealt with, and what has
been found so far, the latest first. -/
structure Stage where
  dealt : Bool
  cursor : Cursor
  found : List Import

namespace Stage

/-- The stage at which the walk over a tree starts. -/
def first (t : Tree) : Stage := ⟨false, .root t, []⟩

/-- The next stage after one **round** of the loop, of which there is none once the whole tree has
been left. -/
def next? : Stage → Option Stage
  | ⟨true, c, found⟩ =>
    match c.onward? with
    | some c' => some ⟨false, c', found⟩
    | none => c.up?.map (⟨true, ·, found⟩)
  | ⟨false, c, found⟩ =>
    if c.focus.tree.isImport then
      some ⟨true, c, (c.focus.tree.import? c.focus.position).toList ++ found⟩
    else
      match c.down? with
      | some c' => some ⟨false, c', found⟩
      | none => some ⟨true, c, found⟩

/-- The loop **ends after** so many rounds from a stage, with what it has found by then. -/
inductive EndsAfter : Nat → Stage → List Import → Prop
  | last {s : Stage} (h : s.next? = none) : EndsAfter 0 s s.found.reverse
  | round {n : Nat} {s s' : Stage} {is : List Import} (h : s.next? = some s')
      (hends : EndsAfter n s' is) :
    EndsAfter (n + 1) s is

/-- What the walk finds in all from a stage on. -/
def walk (s : Stage) : List Import := s.cursor.walk s.dealt s.found

/-- How many moves are left at a stage. -/
def effort (s : Stage) : Nat := s.cursor.effort s.dealt

variable {s s' : Stage}

/-- There is always something left to do. -/
theorem effort_pos (s : Stage) : 0 < s.effort := by
  have := Cursor.one_lt_treeEffort s.cursor.focus.tree
  unfold effort Cursor.effort
  split <;> omega

/-- The walk goes on as the loop does. -/
theorem walk_eq (s : Stage) : s.walk = s.next?.elim s.found.reverse walk := by
  obtain ⟨dealt, c, found⟩ := s
  cases dealt with
  | true =>
    show c.walk true found = _
    rw [Cursor.walk, next?]
    split
    · next hon => rw [hon]; rfl
    · next hlast =>
      split
      · next hup => rw [hlast, hup]; rfl
      · next hend => rw [hlast, hend]; rfl
  | false =>
    show c.walk false found = _
    rw [Cursor.walk, next?]
    split
    · rfl
    · split
      · next hdown => rw [hdown]; rfl
      · next hdown => rw [hdown]; rfl

/-- A round leaves less to do. -/
theorem effort_of_next? (h : s.next? = some s') : s'.effort < s.effort := by
  obtain ⟨dealt, c, found⟩ := s
  cases dealt with
  | true =>
    rw [next?] at h
    split at h
    · next hon =>
      obtain rfl := Option.some.inj h
      exact Cursor.effort_onward hon
    · obtain ⟨c', hup, rfl⟩ := Option.map_eq_some_iff.1 h
      exact Cursor.effort_up hup
  | false =>
    rw [next?] at h
    split at h
    · obtain rfl := Option.some.inj h
      exact Cursor.effort_dealt c
    · split at h
      · next hdown =>
        obtain rfl := Option.some.inj h
        exact Cursor.effort_down hdown
      · obtain rfl := Option.some.inj h
        exact Cursor.effort_dealt c

/-- **The loop ends**, after fewer rounds than there are moves left, with what the walk finds. -/
theorem exists_endsAfter (s : Stage) : ∃ n < s.effort, s.EndsAfter n s.walk := by
  -- By recursion on the effort: a round that there is leaves a stage with less of it.
  rw [walk_eq]
  cases h : s.next? with
  | none => exact ⟨0, s.effort_pos, .last h⟩
  | some s' =>
    have hlt := effort_of_next? h
    obtain ⟨n, hn, hends⟩ := exists_endsAfter s'
    exact ⟨n + 1, by omega, .round h hends⟩
termination_by s.effort

end Stage

/-! ## Addresses -/

namespace Tree

/-- The text of trees is that of the first ones, followed by that of the others. -/
theorem textOf_append (ts us : List Tree) : textOf (ts ++ us) = textOf ts ++ textOf us := by
  induction ts with
  | nil => rfl
  | cons t ts ih => rw [List.cons_append, textOf_cons, textOf_cons, ih, List.append_assoc]

/-- The part of a tree at an **address**, which says what to go down to from the tree, one part
inside the other. -/
def part? (t : Tree) : List Nat → Option Tree
  | [] => some t
  | k :: a => t.children[k]?.bind (part? · a)

/-- The text of a tree in front of the part at an address. -/
def textBefore (t : Tree) : List Nat → List Char
  | [] => []
  | k :: a => textOf (t.children.take k) ++ (t.children[k]?.elim [] (textBefore · a))

/-- The text of a tree is that of a child, between the texts of the children before and after it. -/
theorem text_eq_of_child {t u : Tree} {k : Nat} (h : t.children[k]? = some u) :
    t.text = textOf (t.children.take k) ++ (u.text ++ textOf (t.children.drop (k + 1))) := by
  obtain ⟨hlt, rfl⟩ := List.getElem?_eq_some_iff.1 h
  rw [← textOf_cons, List.getElem_cons_drop, ← textOf_append, List.take_append_drop]
  cases t with
  | node => rfl
  | _ => cases h

/-- The part at an address follows the text in front of it. -/
theorem textBefore_append_isPrefix {t u : Tree} {a : List Nat} (h : t.part? a = some u) :
    t.textBefore a ++ u.text <+: t.text := by
  induction a generalizing t with
  | nil =>
    obtain rfl := Option.some.inj h
    exact List.prefix_rfl
  | cons k a ih =>
    obtain ⟨v, hv, hpart⟩ := Option.bind_eq_some_iff.1 h
    rw [textBefore, hv, Option.elim_some, text_eq_of_child hv, List.append_assoc,
      List.prefix_append_right_inj]
    exact (ih hpart).trans (List.prefix_append ..)

/-- The order of addresses is the one in which the parts of a tree start. -/
theorem textBefore_isPrefix_of_lt {t u : Tree} {a b : List Nat}
    (ha : t.part? a = some u) (hlt : a < b) : t.textBefore a <+: t.textBefore b := by
  induction hlt generalizing t with
  | nil => exact List.nil_prefix
  | @rel k a j b hkj =>
    obtain ⟨v, hv, hpart⟩ := Option.bind_eq_some_iff.1 ha
    -- All of the part that leads to the first address is in front of the one that leads to the
    -- other.
    have hfront : textOf (t.children.take k) ++ v.text <+: textOf (t.children.take j) := by
      obtain ⟨rest, hrest⟩ := List.take_prefix_take_left (l := t.children) hkj
      rw [← hrest, List.take_add_one, hv, Option.toList_some, textOf_append, textOf_append,
        textOf_cons, textOf_nil, List.append_nil]
      exact List.prefix_append ..
    have hwithin : v.textBefore a <+: v.text :=
      (List.prefix_append ..).trans (textBefore_append_isPrefix hpart)
    rw [textBefore, textBefore, hv, Option.elim_some]
    exact (((List.prefix_append_right_inj _).2 hwithin).trans hfront).trans (List.prefix_append ..)
  | @cons k a b hlt ih =>
    obtain ⟨v, hv, hpart⟩ := Option.bind_eq_some_iff.1 ha
    rw [textBefore, textBefore, hv, List.prefix_append_right_inj]
    exact ih hpart

/-- A tree **has an import at** an address if the part there is an import statement that names a
module and no part around it is an import statement. -/
structure HasImportAt (t : Tree) (a : List Nat) : Prop where
  statement : ∃ u, t.part? a = some u ∧ u.isImport = true ∧ u.specifier?.isSome = true
  outermost : ∀ b v, b <+: a → b ≠ a → t.part? b = some v → v.isImport = false

/-- The import that the part at an address of a tree makes, if the tree is at a position. -/
def importAt? (p : Position) (t : Tree) (a : List Nat) : Option Import :=
  (t.part? a).bind fun u => u.import? (p.after (t.textBefore a))

variable {t u : Tree} {k : Nat} {a : List Nat} {p : Position} {i : Import}

/-- A tree has an import at its own address exactly if it is an import statement that names a
module. -/
theorem hasImportAt_nil_iff : t.HasImportAt [] ↔
    t.isImport = true ∧ t.specifier?.isSome = true := by
  constructor
  · rintro ⟨⟨u, hu, h⟩, -⟩
    obtain rfl := Option.some.inj hu
    exact h
  · intro h
    refine ⟨⟨t, rfl, h⟩, ?_⟩
    intro b v hb hne
    exact absurd (List.prefix_nil.1 hb) hne

/-- A tree has an import further down exactly if it is no import statement itself and the child
there has the import. -/
theorem hasImportAt_cons_iff :
    t.HasImportAt (k :: a) ↔ t.isImport = false ∧ ∃ u, t.children[k]? = some u ∧
      u.HasImportAt a := by
  constructor
  · -- The tree itself is around the part, and what is around it in the child is around it in the
    -- tree.
    rintro ⟨⟨w, hw, h⟩, houtermost⟩
    obtain ⟨u, hu, hw⟩ := Option.bind_eq_some_iff.1 hw
    refine ⟨houtermost [] t List.nil_prefix (List.cons_ne_nil k a ∘ Eq.symm) rfl,
      u, hu, ⟨w, hw, h⟩, ?_⟩
    intro b v hb hne hv
    apply houtermost (k :: b) v (List.cons_prefix_cons.2 ⟨rfl, hb⟩)
    · exact fun h => hne (List.cons.inj h).2
    · rw [part?, hu]
      exact hv
  · rintro ⟨himport, u, hu, ⟨w, hw, h⟩, houtermost⟩
    refine ⟨⟨w, ?_, h⟩, ?_⟩
    · rw [part?, hu]
      exact hw
    · intro b v hb hne hv
      cases b with
      | nil =>
        obtain rfl := Option.some.inj hv
        exact himport
      | cons j b =>
        obtain ⟨rfl, hba⟩ := List.cons_prefix_cons.1 hb
        rw [part?, hu] at hv
        exact houtermost b v hba (fun h => hne (congrArg _ h)) hv

/-- The import further down is that of the child, which stands behind the children before it. -/
theorem importAt?_cons (h : t.children[k]? = some u) :
    t.importAt? p (k :: a) = u.importAt? (p.after (textOf (t.children.take k))) a := by
  rw [importAt?, part?, textBefore, h]
  simp only [Option.bind_some, Option.elim_some, Position.after_append]
  rfl

/-- A tree at a position **makes** an import at an address. -/
def MakesAt (p : Position) (t : Tree) (a : List Nat) (i : Import) : Prop :=
  t.HasImportAt a ∧ t.importAt? p a = some i

/-- A row of trees at a position makes an import at an address, where the trees are counted on from
a number. -/
def RowMakesAt (p : Position) (k : Nat) (ts : List Tree) (a : List Nat) (i : Import) : Prop :=
  ∃ j u b, ts[j]? = some u ∧ a = (k + j) :: b ∧ u.MakesAt (p.after (textOf (ts.take j))) b i

/-- An import is made wherever a tree has one. -/
theorem HasImportAt.exists_importAt? (h : t.HasImportAt a) (p : Position) :
    ∃ i, t.importAt? p a = some i := by
  obtain ⟨u, hu, -, hspecifier⟩ := h.statement
  rw [← Option.isSome_iff_exists, importAt?, hu, Option.bind_some, import?, Option.isSome_map]
  exact hspecifier

/-- An import statement makes its own import and no other. -/
theorem makesAt_iff_of_isImport (himport : t.isImport = true) : t.MakesAt p a i ↔
    a = [] ∧ t.import? p = some i := by
  constructor
  · rintro ⟨hhas, hi⟩
    cases a with
    | nil => exact ⟨rfl, hi⟩
    | cons k a =>
      have := (hasImportAt_cons_iff.1 hhas).1
      rw [himport] at this
      cases this
  · rintro ⟨rfl, hi⟩
    refine ⟨hasImportAt_nil_iff.2 ⟨himport, ?_⟩, hi⟩
    obtain ⟨s, hs, -⟩ := Option.map_eq_some_iff.1 hi
    exact Option.isSome_of_eq_some hs

/-- A tree that is no import statement makes the imports of its children. -/
theorem makesAt_iff_rowMakesAt (himport : t.isImport = false) :
    t.MakesAt p a i ↔ RowMakesAt p 0 t.children a i := by
  constructor
  · rintro ⟨hhas, hi⟩
    cases a with
    | nil =>
      have := (hasImportAt_nil_iff.1 hhas).1
      rw [himport] at this
      cases this
    | cons k a =>
      obtain ⟨-, u, hu, hhas⟩ := hasImportAt_cons_iff.1 hhas
      rw [importAt?_cons hu] at hi
      exact ⟨k, u, a, hu, by rw [Nat.zero_add], hhas, hi⟩
  · rintro ⟨k, u, a, hu, rfl, hhas, hi⟩
    rw [Nat.zero_add]
    exact ⟨hasImportAt_cons_iff.2 ⟨himport, u, hu, hhas⟩, by rw [importAt?_cons hu, hi]⟩

/-- No trees make no imports. -/
theorem rowMakesAt_nil_iff : RowMakesAt p k [] a i ↔ False := by
  rw [iff_false]
  rintro ⟨j, u, b, hu, -, -⟩
  cases hu

/-- A row of trees makes the imports of the first, and those of the others behind it. -/
theorem rowMakesAt_cons_iff {ts : List Tree} : RowMakesAt p k (t :: ts) a i ↔
    (∃ b, a = k :: b ∧ t.MakesAt p b i) ∨ RowMakesAt (p.after t.text) (k + 1) ts a i := by
  constructor
  · rintro ⟨j, u, b, hu, rfl, hmakes⟩
    cases j with
    | zero =>
      obtain rfl := Option.some.inj hu
      exact .inl ⟨b, rfl, hmakes⟩
    | succ j =>
      rw [List.take_succ_cons, textOf_cons, Position.after_append] at hmakes
      exact .inr ⟨j, u, b, hu, by rw [Nat.add_right_comm, Nat.add_assoc], hmakes⟩
  · rintro (⟨b, rfl, hmakes⟩ | ⟨j, u, b, hu, rfl, hmakes⟩)
    · exact ⟨0, t, b, rfl, rfl, hmakes⟩
    · refine ⟨j + 1, u, b, hu, by rw [Nat.add_right_comm, Nat.add_assoc], ?_⟩
      rwa [List.take_succ_cons, textOf_cons, Position.after_append]

end Tree

/-! ## Listings -/

/-- Imports **list** what is at addresses: they are what is there, one for each address and in the
order of these. -/
def AreListing (is : List Import) (R : List Nat → Import → Prop) : Prop :=
  ∃ found : List (List Nat × Import), is = found.map Prod.snd ∧
    found.Pairwise (fun x y => x.1 < y.1) ∧
    ∀ a i, (a, i) ∈ found ↔ R a i

namespace AreListing

variable {is js : List Import} {R S : List Nat → Import → Prop}

/-- Imports list what is there, however that is put. -/
theorem congr (h : AreListing is R) (hiff : ∀ a i, S a i ↔ R a i) : AreListing is S := by
  obtain ⟨found, his, hpairwise, hmem⟩ := h
  exact ⟨found, his, hpairwise, fun a i => (hmem a i).trans (hiff a i).symm⟩

/-- No imports list nothing. -/
theorem nil : AreListing [] fun _ _ => False := ⟨[], rfl, .nil, by simp⟩

/-- A single import lists what is at one address. -/
theorem singleton (a : List Nat) (i : Import) : AreListing [i] fun b j => b = a ∧ j = i :=
  ⟨[(a, i)], rfl, List.pairwise_singleton .., by simp⟩

/-- Two listings, the addresses of one of which come before those of the other one, make one. -/
theorem append (h : AreListing is R) (h' : AreListing js S)
    (hlt : ∀ a i b j, R a i → S b j → a < b) : AreListing (is ++ js) fun a i => R a i ∨ S a i := by
  obtain ⟨found, rfl, hpairwise, hmem⟩ := h
  obtain ⟨found', rfl, hpairwise', hmem'⟩ := h'
  refine ⟨found ++ found', List.map_append.symm, ?_, ?_⟩
  · rw [List.pairwise_append]
    refine ⟨hpairwise, hpairwise', ?_⟩
    intro x hx y hy
    exact hlt _ _ _ _ ((hmem ..).1 hx) ((hmem' ..).1 hy)
  · intro a i
    rw [List.mem_append, hmem, hmem']

/-- A listing of a tree is one of the trees around it, in which the addresses are longer. -/
theorem below (h : AreListing is R) (k : Nat) : AreListing is fun a i =>
    ∃ b, a = k :: b ∧ R b i := by
  obtain ⟨found, rfl, hpairwise, hmem⟩ := h
  refine ⟨found.map fun x => (k :: x.1, x.2), ?_, ?_, ?_⟩
  · rw [List.map_map]
    rfl
  · rw [List.pairwise_map]
    exact hpairwise.imp fun hlt => List.Lex.cons hlt
  · intro a i
    constructor
    · intro hx
      obtain ⟨⟨b, j⟩, hb, heq⟩ := List.mem_map.1 hx
      obtain ⟨rfl, rfl⟩ := Prod.mk.inj heq
      exact ⟨b, rfl, (hmem ..).1 hb⟩
    · rintro ⟨b, rfl, hR⟩
      exact List.mem_map.2 ⟨(b, i), (hmem ..).2 hR, rfl⟩

end AreListing

namespace Tree

mutual

/-- The imports of a tree list those that it makes. -/
theorem areListing_imports (t : Tree) (p : Position) : AreListing (t.imports p) (t.MakesAt p) := by
  -- What is no node has no children, and an import statement is not looked into.
  cases t with
  | gap | stray | token =>
    apply AreListing.nil.congr
    intro a i
    rw [makesAt_iff_rowMakesAt rfl]
    exact rowMakesAt_nil_iff
  | node c ts =>
    cases himport : (node c ts).isImport with
    | true =>
      obtain rfl := eq_importStatement_of_isImport himport
      rw [imports]
      cases hi : (node .importStatement ts).import? p with
      | none =>
        apply AreListing.nil.congr
        intro a i
        simp [makesAt_iff_of_isImport himport, hi]
      | some i =>
        apply (AreListing.singleton [] i).congr
        intro a j
        rw [makesAt_iff_of_isImport himport, hi, Option.some_inj, eq_comm (a := i)]
    | false =>
      rw [imports_of_not_isImport himport]
      apply (areListing_importsOf ts p 0).congr
      intro a i
      exact makesAt_iff_rowMakesAt himport

/-- The imports of a row of trees list those that it makes. -/
theorem areListing_importsOf (ts : List Tree) (p : Position) (k : Nat) :
    AreListing (importsOf p ts) (RowMakesAt p k ts) := by
  cases ts with
  | nil =>
    apply AreListing.nil.congr
    intro a i
    exact rowMakesAt_nil_iff
  | cons t ts =>
    apply (((areListing_imports t p).below k).append
      (areListing_importsOf ts (p.after t.text) (k + 1)) ?_).congr
    · intro a i
      exact rowMakesAt_cons_iff
    · -- What is in the first tree is counted before what is in the others.
      rintro a i b j ⟨a, rfl, -⟩ ⟨l, u, b, -, rfl, -⟩
      exact List.Lex.rel (by omega)

end

end Tree

/-- **The walk over a tree** ends, and it finds one import for each import statement that names a
module and is inside no other one, at any depth, in the order in which they start, and nothing
else. -/
theorem collectImports_exact (t : Tree) :
    (∃ n < t.effort, (Stage.first t).EndsAfter n (collectImports t)) ∧
      ∃ found : List (List Nat × Import), collectImports t = found.map Prod.snd ∧
        found.Pairwise (fun x y => x.1 < y.1) ∧ (∀ a, a ∈ found.map Prod.fst ↔ t.HasImportAt a) ∧
        ∀ x ∈ found, t.importAt? {} x.1 = some x.2 := by
  constructor
  · exact (Stage.first t).exists_endsAfter
  · -- The walk collects what recursion over the tree does.
    rw [collectImports_eq_imports]
    obtain ⟨found, himports, hpairwise, hmem⟩ := t.areListing_imports {}
    refine ⟨found, himports, hpairwise, ?_, ?_⟩
    · intro a
      constructor
      · intro ha
        obtain ⟨x, hx, rfl⟩ := List.mem_map.1 ha
        exact ((hmem ..).1 hx).1
      · intro hhas
        obtain ⟨i, hi⟩ := hhas.exists_importAt? {}
        exact List.mem_map.2 ⟨(a, i), (hmem a i).2 ⟨hhas, hi⟩, rfl⟩
    · intro x hx
      exact ((hmem ..).1 hx).2

/-- An import inside another one is passed over, and so is one that names no module. -/
example : collectImports (.node .program [
    .node .block [.node .importStatement [.token .specifier ['a'],
      .node .importStatement [.token .specifier ['b']]]],
    .node .importStatement [.token .name ['c']],
    .node .importStatement [.token .specifier ['d']]]) = [⟨['a'], 0, 2, 1, 0⟩,
      ⟨['d'], 3, 1, 1, 3⟩] := by
  cbv

end ImportLint.Script
