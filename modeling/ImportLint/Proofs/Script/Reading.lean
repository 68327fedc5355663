import ImportLint.Proofs.Script.Forms
import ImportLint.Script.Reading

/-!
# Reading and the gap ahead

The search goes on from what is left of a text, and what it has come over stays behind it as it is.
So for a text it proposes the gap ahead, and then what it proposes for the text after the gap. A gap
makes no difference to the form of a program either.
-/

namespace ImportLint.Script

open Script.Tree

variable {d : Dialect} {s : List Char} {ts : List Tree}

/-! ## Gaps -/

/-- The gap ahead and what follows it are the whole text. -/
theorem gapFrom_append (b : Between) (s : List Char) : (gapFrom b s).1 ++ (gapFrom b s).2 = s := by
  fun_induction gapFrom b s <;> simp_all

/-- Nothing of a gap is left after it. -/
theorem gapFrom_rest (b : Between) (s : List Char) :
    gapFrom .open (gapFrom b s).2 = ([], (gapFrom b s).2) := by
  fun_induction gapFrom b s with
  | case1 => rfl
  | case4 r hopen =>
    conv => lhs; unfold gapFrom
    exact if_neg hopen
  | case6 c r hline hblock hblank =>
    conv => lhs; unfold gapFrom
    split <;> simp_all
  | case2 r ih | case3 r hcloses ih | case5 c r _ _ _ ih | case7 c r _ ih | case8 c r _ ih
  | case9 r ih
  | case10 c r _ ih => exact ih

/-- There is no gap after the gap ahead. -/
theorem gap_rest (s : List Char) : gap (gap s).2 = ([], (gap s).2) := gapFrom_rest .open s

/-- How much text is left after the gap ahead. -/
theorem size_spot (s : List Char) : (Spot.at s s.length).size = (gap s).2.length := by
  have hlength := congrArg List.length (gapFrom_append .open s)
  rw [List.length_append] at hlength
  show s.length - (gap s).1.length = _
  rw [gap]
  omega

/-! ## Trees in front of a row -/

section

variable {kind : List Char → Tree}

/-- A tree in front of a row is in front of a longer one too. -/
theorem consText_append (kind : List Char → Tree) (s : List Char) (ts us : List Tree) :
    consText kind s (ts ++ us) = consText kind s ts ++ us := by
  unfold consText
  split <;> rfl

/-- One tree is the same row from both ends. -/
theorem reverse_consText_nil (kind : List Char → Tree) (s : List Char) :
    (consText kind s []).reverse = consText kind s [] := by
  unfold consText
  split <;> rfl

/-- The text of a tree in front comes first. -/
theorem textOf_consText (hkind : ∀ s, (kind s).text = s) (s : List Char) (ts : List Tree) :
    textOf (consText kind s ts) = s ++ textOf ts := by
  unfold consText
  split
  · next h => rw [List.isEmpty_iff.1 h, List.nil_append]
  · rw [textOf_cons, hkind]

/-- A gap in front makes no difference to whether a construct conforms. -/
theorem conforms_consText_gap (c : Construct) (s : List Char) (ts : List Tree) :
    (node c (consText .gap s ts)).conforms d = (node c ts).conforms d := by
  unfold consText
  split
  · rfl
  · have hgap : (Tree.gap s).conforms d = true := by simp only [conforms]
    rw [conforms, conforms, haveForm_cons_of_isLoose rfl, allConform, hgap, Bool.true_and]

end

/-! ## The search -/

/-- What a construct may be at a place depends on what is left of the text alone. -/
theorem Construct.search_congr {p q : Spot} (hnext : p.next = q.next)
    (hsize : p.size = q.size) (n : Nat) (c : Construct) (found : Findings) :
    Construct.search d n c p found = Construct.search d n c q found := by
  cases n with
  | zero => rfl
  | succ n => rw [Construct.search, Construct.search, hnext, hsize]

/-- **What the search has come over** stays behind it as it is. -/
theorem searchProgram_append (n : Nat) (front back : List Tree) (p : Spot) (found : Findings) :
    searchProgram d n ⟨front ++ back, p⟩ found = searchProgram d n ⟨front, p⟩ found ++ back := by
  induction n generalizing front p found with
  | zero => exact consText_append ..
  | succ n ih =>
    simp only [searchProgram, consText_append]
    split
    · rfl
    · split
      · exact ih (_ :: _) _ _
      · split
        · exact ih (_ :: _) _ _
        · exact ih (_ :: _) _ _

/-- The gap ahead is come over first. -/
theorem searchProgram_of_gap {p q : Spot} (hnext : p.next = q.next)
    (hsize : p.size = q.size) (hgap : q.gap = []) (n : Nat) (trail : List Tree) (found : Findings) :
    searchProgram d (n + 1) ⟨trail, p⟩ found =
      searchProgram d (n + 1) ⟨consText .gap p.gap trail, q⟩ found := by
  rw [searchProgram, searchProgram]
  simp only [hnext, hsize, hgap, Construct.search_congr hnext hsize,
    show consText Tree.gap [] = id from rfl, id]

/-- The search starts after the line that names the interpreter, if there is one. -/
theorem start_eq (s : List Char) : Reach.start s =
    ((interpreterLine (gap s).2).map fun line =>
      ⟨.token .interpreterLine line.1 :: consText .gap (gap s).1 [],
        Spot.at line.2 ((Spot.at s s.length).size - line.1.length)⟩).getD ⟨[],
          Spot.at s s.length⟩ := rfl

/-- A gap that the search has come over first is proposed in front. -/
theorem reverse_searchProgram_append (g : List Char) (n : Nat) (front : List Tree) (p : Spot)
    (found : Findings) :
    (searchProgram d n ⟨front ++ consText .gap g [], p⟩ found).reverse =
      consText .gap g (searchProgram d n ⟨front, p⟩ found).reverse := by
  rw [searchProgram_append, List.reverse_append, reverse_consText_nil,
    ← consText_append, List.nil_append]

/-- **The gap ahead** is proposed as it is, in front of what is proposed for the text after it. -/
theorem propose_eq (d : Dialect) (s : List Char) :
    propose d s = consText .gap (gap s).1 (propose d (gap s).2) := by
  have hsize : (Spot.at s s.length).size = (Spot.at (gap s).2 (gap s).2.length).size := by
    rw [size_spot, size_spot, gap_rest]
  have hnext : (Spot.at s s.length).next = (Spot.at (gap s).2 (gap s).2.length).next := by
    show (gap s).2 = (gap (gap s).2).2
    rw [gap_rest]
  have hgap : (Spot.at (gap s).2 (gap s).2.length).gap = [] := by
    show (gap (gap s).2).1 = []
    rw [gap_rest]
  -- Both searches start at the same spot but for the gap, which goes in front of what they find.
  rw [propose, propose, start_eq, start_eq, gap_rest]
  cases interpreterLine (gap s).2 with
  | none =>
    simp only [Option.map_none, Option.getD_none, hsize]
    rw [searchProgram_of_gap hnext hsize hgap]
    exact reverse_searchProgram_append (gap s).1 _ [] _ ∅
  | some line =>
    simp only [Option.map_some, Option.getD_some, hsize]
    exact reverse_searchProgram_append (gap s).1 _ [_] _ ∅

/-! ## Reading -/

/-- Of a text without errors, what is proposed is a reading. -/
theorem read_of_not_hasStray (h : (read d s).hasStray = false) :
    read d s = .node .program (propose d s) ∧
      textOf (propose d s) = s ∧ (node .program (propose d s)).conforms d = true := by
  unfold read at h ⊢
  simp only at h ⊢
  split at h
  · next hcheck =>
    rw [if_pos hcheck]
    rw [Bool.and_eq_true, decide_eq_true_eq] at hcheck
    exact ⟨rfl, hcheck⟩
  · cases h

/-- What is proposed is read, if it is a reading. -/
theorem read_of_conforms (htext : textOf (propose d s) = s)
    (hconforms : (node .program (propose d s)).conforms d = true) :
    read d s = .node .program (propose d s) := by
  unfold read
  simp [htext, hconforms]

/-- A text without errors is read as it is with a longer gap in front of it. -/
theorem exists_read_append {w : List Char} (hgap : gap (w ++ s) = (w ++ (gap s).1, (gap s).2))
    (h : (read d s).hasStray = false) :
    ∃ ts, read d s = .node .program (consText .gap (gap s).1 ts) ∧
      read d (w ++ s) = .node .program (consText .gap (w ++ (gap s).1) ts) := by
  obtain ⟨hread, htext, hconforms⟩ := read_of_not_hasStray h
  have hpropose : propose d (w ++ s) = consText .gap (w ++ (gap s).1) (propose d (gap s).2) := by
    rw [propose_eq, hgap]
  refine ⟨propose d (gap s).2, by rw [hread, propose_eq d s], ?_⟩
  rw [← hpropose]
  rw [propose_eq d s, textOf_consText fun _ => rfl] at htext
  rw [propose_eq d s, conforms_consText_gap] at hconforms
  apply read_of_conforms
  · rw [hpropose, textOf_consText fun _ => rfl, List.append_assoc, htext]
  · rw [hpropose, conforms_consText_gap, hconforms]

/-- The tree of a source is a program that has the source as its text, and of which all parts
conform to the grammar. -/
theorem exists_read_eq (d : Dialect) (source : List Char) :
    ∃ ts, read d source = .node .program ts ∧ textOf ts = source ∧ allConform d ts = true := by
  unfold read
  simp only
  split
  · next h =>
    rw [Bool.and_eq_true, decide_eq_true_eq, text_node, conforms, Bool.and_eq_true] at h
    obtain ⟨htext, -, hconform⟩ := h
    exact ⟨_, rfl, htext, hconform⟩
  · exact ⟨_, rfl, by simp, rfl⟩

end ImportLint.Script
