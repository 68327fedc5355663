import ImportLint.Proofs.Glob.Assembly
import ImportLint.Proofs.Glob.Collapse
import ImportLint.Proofs.Glob.Directory
import ImportLint.Proofs.Glob.Pattern
import ImportLint.Proofs.Glob.Spellings

/-!
# Which patterns are accepted

Once its stars are collapsed, a spelling has two stars in a row only where they are a piece, or
within one that ends there: so reading it into tokens can fail in one way only, at a bracket that
opens no class. Brace alternation, the collapsing of stars and the reading of tokens all find the
same classes.
-/

namespace ImportLint.Glob

/-! ## Two stars in a row -/

/-- Two stars in a row have a piece of the text for themselves, wherever they stand. -/
def StarsAlone (s : List Char) : Prop :=
  ∀ a b, s = a ++ '*' :: '*' :: b → (∀ c ∈ a.getLast?, c = '/') ∧ ∀ c ∈ b.head?, c = '/'

/-- What stands before stars does not matter to later ones. -/
theorem StarsAlone.of_append {t s : List Char} (h : StarsAlone (t ++ s)) : StarsAlone s := by
  rintro a b rfl
  obtain ⟨hbefore, hafter⟩ := h (t ++ a) b (List.append_assoc ..).symm
  refine ⟨fun c hc => hbefore c ?_, hafter⟩
  rw [Option.mem_def] at hc ⊢
  rw [List.getLast?_append, hc, Option.some_or]

/-- A piece in which stars stand as collapsing leaves them. -/
def IsCollapsed (p : List Char) : Prop := p = ['*', '*'] ∨ ¬ ['*', '*'] <:+: p

/-- Two stars in a row are all there is to a collapsed segment that has them. -/
theorem IsCollapsed.eq_nil {a b : List Char} (h : IsCollapsed (a ++ '*' :: '*' :: b)) :
    a = [] ∧ b = [] := by
  rcases h with h | h
  · have hlen := congrArg List.length h
    simp only [List.length_append, List.length_cons, List.length_nil] at hlen
    exact ⟨List.eq_nil_of_length_eq_zero (by omega), List.eq_nil_of_length_eq_zero (by omega)⟩
  · exact absurd ⟨a, b, by simp⟩ h

/-- In a collapsed segment two stars in a row stand alone. -/
theorem IsCollapsed.starsAlone {p : List Char} (h : IsCollapsed p) : StarsAlone p := by
  rintro a b rfl
  obtain ⟨rfl, rfl⟩ := h.eq_nil
  exact ⟨by simp, by simp⟩

/-- One more piece in front. -/
theorem StarsAlone.cons {p s : List Char} (h : StarsAlone s) (hp : IsCollapsed p) :
    StarsAlone (p ++ '/' :: s) := by
  intro a b heq
  rcases List.append_eq_append_iff.1 heq with ⟨a', rfl, hrest⟩ | ⟨p', rfl, hrest⟩
  · -- The stars come after the slash.
    cases a' with
    | nil => simp at hrest
    | cons c a' =>
      obtain ⟨rfl, rfl⟩ := List.cons.inj hrest
      obtain ⟨hbefore, hafter⟩ := h a' b rfl
      refine ⟨fun c hc => ?_, hafter⟩
      rw [List.getLast?_append, List.getLast?_cons, Option.some_or, Option.mem_some_iff] at hc
      cases hlast : a'.getLast? with
      | none => rw [← hc, hlast, Option.getD_none]
      | some d =>
        rw [hlast, Option.getD_some] at hc
        exact hc ▸ hbefore d hlast
  · -- They are in the piece, and so are all of it.
    match p', hrest with
    | [], hrest => simp at hrest
    | [_], hrest => simp at hrest
    | _ :: _ :: p', hrest =>
      simp only [List.cons_append, List.cons.injEq] at hrest
      obtain ⟨rfl, rfl, rfl⟩ := hrest
      obtain ⟨rfl, rfl⟩ := hp.eq_nil
      exact ⟨by simp, by simp⟩

/-- Where all segments are collapsed, two stars in a row stand alone between slashes. -/
theorem starsAlone_joinPieces {ps : List (List Char)} (h : ∀ p ∈ ps, IsCollapsed p) :
    StarsAlone (joinPieces '/' ps) := by
  induction ps with
  | nil => exact IsCollapsed.starsAlone (.inr (by simp [joinPieces]))
  | cons p ps ih =>
    obtain ⟨hp, hps⟩ := List.forall_mem_cons.1 h
    by_cases hnil : ps = []
    · rw [hnil, joinPieces_singleton]
      exact hp.starsAlone
    · rw [joinPieces_cons hnil]
      exact (ih hps).cons hp

/-- Runs of stars shortened to one leave no two stars in a row. -/
theorem not_infix_singleStars (s : List Char) : ¬ ['*', '*'] <:+: singleStars s := by
  fun_induction singleStars s with
  | case1 r ih => exact ih
  | case2 c r hc ih =>
    rw [List.infix_cons_iff]
    rintro (hstar | hrest)
    · rw [List.cons_prefix_cons] at hstar
      obtain ⟨rfl, t, ht⟩ := hstar
      -- The star after this one would have been one before.
      have hhead := (thins_singleStars r).head?_eq
      rw [← ht, List.singleton_append, List.head?_cons, eq_comm, List.head?_eq_some_iff] at hhead
      obtain ⟨r', rfl⟩ := hhead
      exact hc r' rfl rfl
    · exact ih hrest
  | case3 => simp

/-- A segment is collapsed once its runs of stars have been shortened. -/
theorem isCollapsed_collapseSegment (s : List Char) : IsCollapsed (collapseSegment s) := by
  unfold collapseSegment
  split
  · exact .inl rfl
  · exact .inr (not_infix_singleStars s)

/-- **Collapsed stars** are single or have a piece for themselves. -/
theorem starsAlone_collapseStars (s : List Char) : StarsAlone (collapseStars s) := by
  refine starsAlone_joinPieces fun p hp => ?_
  obtain ⟨q, -, rfl⟩ := List.mem_map.1 hp
  exact isCollapsed_collapseSegment q

/-! ## The first bracket that opens no class -/

/-- Where the first of some lexemes is a bracket that opens no class: how many characters come
before it. -/
def openBracketIn : List BraceLexeme → Option Nat
  | [] => none
  | l :: ls => if l = .text ['['] then some 0 else (openBracketIn ls).map (l.chars.length + ·)

/-- Where the first bracket of a text is that opens no class, when the text is read from the left as
brace alternation reads it. -/
def openBracket? (s : List Char) : Option Nat := openBracketIn (braceLexemes s)

section

variable {r rest : List Char} {b : Bracket}

/-- The empty text opens no class. -/
@[simp] theorem openBracket?_nil : openBracket? [] = none := by
  rw [openBracket?, braceLexemes_nil, openBracketIn]

/-- A character other than a bracket is no open bracket. -/
theorem BraceLexeme.ofChar_ne {c : Char} (hc : c ≠ '[') : ofChar c ≠ .text ['['] := by
  intro h
  have hchars := congrArg chars h
  rw [chars_ofChar] at hchars
  exact hc (List.head_eq_of_cons_eq hchars)

/-- A class is spelled with more than its opening bracket. -/
theorem Bracket.text_ne (b : Bracket) : b.text ≠ ['['] := by
  simp [text]

/-- A character that is no bracket moves the open bracket by one. -/
theorem openBracket?_cons {c : Char} (hc : c ≠ '[') (r : List Char) :
    openBracket? (c :: r) = (openBracket? r).map (1 + ·) := by
  rw [openBracket?, braceLexemes_cons hc, openBracketIn, if_neg (BraceLexeme.ofChar_ne hc),
    BraceLexeme.chars_ofChar]
  rfl

/-- A class that is closed moves the open bracket by its spelling. -/
theorem openBracket?_bracket (h : Bracket.split r = some (b, rest)) :
    openBracket? ('[' :: r) = (openBracket? rest).map (b.text.length + ·) := by
  have hne : BraceLexeme.text b.text ≠ .text ['['] := mt BraceLexeme.text.inj b.text_ne
  rw [openBracket?, braceLexemes_bracket h, openBracketIn, if_neg hne]
  rfl

/-- A bracket that closes no class is open itself. -/
theorem openBracket?_openBracket (h : Bracket.split r = none) :
    openBracket? ('[' :: r) = some 0 := by
  rw [openBracket?, braceLexemes_openBracket h, openBracketIn, if_pos rfl]

end

/-- There is no open bracket among lexemes exactly if none of them is a bare bracket. -/
theorem openBracketIn_eq_none_iff {ls : List BraceLexeme} : openBracketIn ls = none ↔
    .text ['['] ∉ ls := by
  induction ls with
  | nil => simp [openBracketIn]
  | cons l ls ih =>
    rw [openBracketIn, List.mem_cons, not_or, ← ih]
    split
    · next hl => simp [hl]
    · next hl => rw [Option.map_eq_none_iff, and_iff_right (Ne.symm hl)]

/-- The first open bracket stands behind the characters of the lexemes before it. -/
theorem openBracketIn_append {ls : List BraceLexeme} (h : .text ['['] ∉ ls)
    (ms : List BraceLexeme) :
    openBracketIn (ls ++ .text ['['] :: ms) = some (ls.flatMap BraceLexeme.chars).length := by
  induction ls with
  | nil => rfl
  | cons l ls ih =>
    rw [List.mem_cons, not_or] at h
    rw [List.cons_append, openBracketIn, if_neg (Ne.symm h.1), ih h.2,
      List.flatMap_cons, List.length_append]
    rfl

/-- There is none in a text that closes its classes. -/
theorem openBracket?_eq_none_iff {s : List Char} : openBracket? s = none ↔ ClosesClasses s :=
  openBracketIn_eq_none_iff

/-- A character that is no bracket leaves the classes closed. -/
theorem closesClasses_cons {c : Char} (hc : c ≠ '[') {r : List Char} (h : ClosesClasses r) :
    ClosesClasses (c :: r) := by
  rw [← openBracket?_eq_none_iff] at h ⊢
  rw [openBracket?_cons hc, h, Option.map_none]

/-- A closed class leaves the classes closed. -/
theorem closesClasses_bracket {r rest : List Char} {b : Bracket}
    (hs : Bracket.split r = some (b, rest)) (h : ClosesClasses rest) :
    ClosesClasses ('[' :: r) := by
  rw [← openBracket?_eq_none_iff] at h ⊢
  rw [openBracket?_bracket hs, h, Option.map_none]

/-- Text that closes its classes comes before it, and text that closes no class after it. -/
theorem openBracket?_eq_some_iff {s : List Char} {k : Nat} : openBracket? s = some k ↔
    ∃ front rest, s = front ++ '[' :: rest ∧ front.length = k ∧ ClosesClasses front ∧
      Bracket.split rest = none := by
  constructor
  · intro h
    -- Each lexeme but such a bracket belongs to the text before it.
    induction s using lexing_induction generalizing k with
    | nil => simp at h
    | cons c r hc ih =>
      rw [openBracket?_cons hc] at h
      obtain ⟨k, hk, rfl⟩ := Option.map_eq_some_iff.1 h
      obtain ⟨front, rest, rfl, rfl, hfront, hrest⟩ := ih hk
      exact ⟨c :: front, rest, rfl, Nat.add_comm .., closesClasses_cons hc hfront, hrest⟩
    | bracket r b rest hs ih =>
      rw [openBracket?_bracket hs] at h
      obtain ⟨k, hk, rfl⟩ := Option.map_eq_some_iff.1 h
      obtain ⟨front, rest, rfl, rfl, hfront, hrest⟩ := ih hk
      refine ⟨b.text ++ front, rest, ?_, List.length_append, ?_, hrest⟩
      · rw [List.append_assoc, Bracket.text_append_of_split hs]
      · rw [Bracket.text_eq, List.cons_append]
        exact closesClasses_bracket (Bracket.split_inner_append hs front) hfront
    | openBracket r hs ih =>
      rw [openBracket?_openBracket hs] at h
      exact ⟨[], r, rfl, Option.some.inj h, by simp [ClosesClasses], hs⟩
  · rintro ⟨front, rest, rfl, rfl, hfront, hrest⟩
    rw [openBracket?, hfront.braceLexemes_append, braceLexemes_openBracket hrest,
      openBracketIn_append hfront, flatMap_chars_braceLexemes]

/-! ## Faults of collapsed spellings -/

/-- A fault after `n` more characters. -/
theorem exists_map_add_iff {place? : Option Nat} {n position : Nat} {f : Fault} :
    (∃ k, place?.map (n + ·) = some k ∧ f = ⟨position + k, .openBracket⟩) ↔
      ∃ k, place? = some k ∧ f = ⟨position + n + k, .openBracket⟩ := by
  cases place? with
  | none => simp
  | some k => simp only [Option.map_some, Option.some.injEq, exists_eq_left', Nat.add_assoc]

/-- **Reading tokens** fails at the first bracket that opens no class, and only there, if two stars
in a row have a piece for themselves. -/
theorem tokensFrom_eq_error_iff {position : Nat} {before : Option Char}
    {tokens : List Token} {s : List Char} {f : Fault} (h : StarsAlone (before.toList ++ s)) :
    tokensFrom position before tokens s = .error f ↔
      ∃ k, openBracket? s = some k ∧ f = ⟨position + k, .openBracket⟩ := by
  fun_induction tokensFrom position before tokens s with
  | case1 => simp
  | case2 position before tokens r ih =>
    rw [ih h.of_append, openBracket?_cons (by decide), exists_map_add_iff]
  | case3 position before tokens r =>
    -- Three stars in a row, so a star after two.
    exact absurd ((h before.toList ('*' :: r) rfl).2 '*' rfl) (by decide)
  | case4 position before tokens hb =>
    rw [openBracket?_cons (by decide), openBracket?_cons (by decide)]
    simp
  | case5 position before tokens hb _ r _ ih =>
    have hrest : StarsAlone ('/' :: r) :=
      StarsAlone.of_append (t := before.toList ++ ['*', '*']) (by simpa using h)
    rw [ih hrest, openBracket?_cons (by decide), openBracket?_cons (by decide),
      openBracket?_cons (by decide), exists_map_add_iff, exists_map_add_iff, exists_map_add_iff]
  | case6 position before tokens r _ _ hnil hslash =>
    -- Two stars before another character than a slash.
    obtain ⟨c, r, rfl⟩ := List.exists_cons_of_ne_nil hnil
    obtain rfl := (h before.toList (c :: r) rfl).2 c rfl
    exact absurd rfl (hslash r)
  | case7 position before tokens r _ hb =>
    -- Two stars after another character than a slash.
    rw [Option.all_eq_true] at hb
    refine absurd (fun c hc => ?_) hb
    subst hc
    exact beq_iff_eq.2 ((h [c] r rfl).1 c rfl)
  | case8 position before tokens r _ hr ih =>
    rw [ih h.of_append, openBracket?_cons (by decide), exists_map_add_iff]
  | case9 position before tokens r b rest hs ih =>
    -- The class is behind, but for the bracket that closes it.
    have hrest : StarsAlone ([']'] ++ rest) := by
      rw [← Bracket.text_append_of_split hs, Bracket.text, List.append_assoc, ← List.append_assoc]
        at h
      exact h.of_append
    rw [ih hrest, openBracket?_bracket hs, exists_map_add_iff]
  | case10 position before tokens r hs =>
    rw [openBracket?_openBracket hs]
    simp [eq_comm]
  | case11 position before tokens c r _ _ _ _ hc ih =>
    rw [ih h.of_append, openBracket?_cons hc, exists_map_add_iff]

/-- **A collapsed spelling** is a glob, or has a bracket that opens no class. -/
theorem Alternative.ofSpelling?_eq_error_iff {w : List Char} {f : Fault} :
    Alternative.ofSpelling? w = .error f ↔
      ∃ k, openBracket? (collapseStars w) = some k ∧ f = ⟨k, .openBracket⟩ := by
  have hstars : StarsAlone ((none : Option Char).toList ++ collapseStars w) :=
    starsAlone_collapseStars w
  rw [Alternative.ofSpelling?, map_eq_error_iff, tokenise, tokensFrom_eq_error_iff hstars]
  simp only [Nat.zero_add]

/-! ## Classes, before and after -/

/-- A unit as written. -/
def Token.text : Token → List Char
  | .char c => [c]
  | .anyChar => ['?']
  | .bracket b => b.text
  | .anySequence => ['*']
  | .anySegments => ['*', '*']

/-- A character that is no bracket is a unit of its own. -/
theorem exists_units_cons {c : Char} (hc : c ≠ '[') (r : List Char) :
    ∃ u, units (c :: r) = u :: units r ∧ u.text = [c] := by
  by_cases hany : c = '?'
  · subst hany
    exact ⟨.anyChar, units_anyChar r, rfl⟩
  by_cases hstar : c = '*'
  · subst hstar
    exact ⟨.anySequence, units_star r, rfl⟩
  · exact ⟨.char c, units_char hany hstar hc r, rfl⟩

/-- **Both readers cut a text alike**: the units of a spelling are the lexemes of brace
alternation. -/
theorem text_units (s : List Char) :
    (units s).map Token.text = (braceLexemes s).map BraceLexeme.chars := by
  induction s using lexing_induction with
  | nil => simp
  | cons c r hc ih =>
    obtain ⟨u, hu, htext⟩ := exists_units_cons hc r
    rw [hu, braceLexemes_cons hc, List.map_cons, List.map_cons, ih, htext, BraceLexeme.chars_ofChar]
  | bracket r b rest hs ih =>
    rw [units_bracket hs, braceLexemes_bracket hs, List.map_cons, List.map_cons, ih]
    rfl
  | openBracket r hs ih =>
    rw [units_openBracket hs, braceLexemes_openBracket hs, List.map_cons, List.map_cons, ih]
    rfl

/-- Only the bare bracket is spelled as a bracket, among the lexemes. -/
theorem BraceLexeme.chars_eq_iff {l : BraceLexeme} : l.chars = ['['] ↔ l = .text ['['] := by
  cases l <;> simp [chars]

/-- Only the bare bracket is spelled as a bracket, among the tokens. -/
theorem Token.text_eq_iff {u : Token} : u.text = ['['] ↔ u = .char '[' := by
  cases u <;> simp [text, Bracket.text_ne]

/-- A bracket that opens no class is a unit by itself. -/
theorem closesClasses_iff_units {s : List Char} : ClosesClasses s ↔ .char '[' ∉ units s := by
  have hlexemes : .text ['['] ∈ braceLexemes s ↔
      ['['] ∈ (braceLexemes s).map BraceLexeme.chars := by
    simp [BraceLexeme.chars_eq_iff]
  have hunits : .char '[' ∈ units s ↔ ['['] ∈ (units s).map Token.text := by
    simp [Token.text_eq_iff]
  rw [ClosesClasses, hlexemes, hunits, text_units]

/-- Squeezing tokens keeps the plain characters among them. -/
theorem char_mem_squeeze_iff {c : Char} {g : List Token} : .char c ∈ squeeze g ↔ .char c ∈ g := by
  fun_induction squeeze g with
  | case1 g ih => simpa using ih
  | case2 t g _ ih =>
    have ht : .char c = t.collapse ↔ .char c = t := by cases t <;> simp [Token.collapse]
    rw [List.mem_cons, List.mem_cons, ih, ht]
  | case3 => rfl

/-- Collapsing stars leaves characters in their segments. -/
theorem char_mem_collapseUnits_iff {c : Char} {g : List Token} :
    .char c ∈ collapseUnits g ↔ .char c ∈ g := by
  unfold collapseUnits
  split
  · next h =>
    simp only [isAnySegments, Bool.and_eq_true, List.all_eq_true, beq_iff_eq] at h
    constructor
    · intro hc
      simp at hc
    · intro hc
      cases h.2 _ hc
  · exact char_mem_squeeze_iff

/-- Collapsing stars opens no class and closes none. -/
theorem closesClasses_collapseStars_iff {w : List Char} : ClosesClasses (collapseStars w) ↔
    ClosesClasses w := by
  -- Units are collapsed segment by segment.
  have hsegments (s : List Char) : .char '[' ∈ units s ↔ ∃ g ∈ segments s, .char '[' ∈ g :=
    mem_iff_exists_piece (by decide)
  rw [closesClasses_iff_units, closesClasses_iff_units, hsegments, hsegments,
    segments_collapseStars]
  simp only [List.mem_map, exists_exists_and_eq_and, char_mem_collapseUnits_iff]

/-- A spelling is a glob exactly if it closes its classes. -/
theorem Alternative.exists_ofSpelling?_eq_ok_iff {w : List Char} :
    (∃ alt, Alternative.ofSpelling? w = .ok alt) ↔ ClosesClasses w := by
  rw [← closesClasses_collapseStars_iff, ← openBracket?_eq_none_iff]
  constructor
  · rintro ⟨alt, halt⟩
    by_contra hne
    obtain ⟨k, hk⟩ := Option.ne_none_iff_exists'.1 hne
    cases halt.symm.trans (Alternative.ofSpelling?_eq_error_iff.2 ⟨k, hk, rfl⟩)
  · intro hnone
    cases h : Alternative.ofSpelling? w with
    | ok alt => exact ⟨alt, rfl⟩
    | error f =>
      obtain ⟨k, hk, -⟩ := Alternative.ofSpelling?_eq_error_iff.1 h
      cases hnone.symm.trans hk

/-! ## Patterns -/

/-- A spelling is **read alike** by all that read it: what brace alternation took for a class in the
pattern, and for no class, is a unit of the spelling, and what its tokens are put together from are
these units with the stars collapsed. -/
structure IsReadAlike (pattern w : List Char) : Prop where
  cut : ∃ ks : List BraceLexeme, ks.Sublist (braceLexemes pattern) ∧
    w = ks.flatMap BraceLexeme.chars ∧
    (units w).map Token.text = ks.map BraceLexeme.chars
  tokens : ∀ alt, Alternative.ofSpelling? w = .ok alt →
    Assembles ((segments w).map collapseUnits) alt.tokens

/-- The spellings of a pattern are read as the pattern is. -/
theorem isReadAlike_of_mem_spellings {pattern w : List Char} (hw : w ∈ spellings pattern) :
    IsReadAlike pattern w := by
  constructor
  · obtain ⟨ks, hks, rfl⟩ := madeOf_spellings pattern w hw
    exact ⟨ks, hks, rfl, (text_units _).trans (congrArg _ (braceLexemes_flatMap_chars hks))⟩
  · intro alt halt
    rw [← segments_collapseStars]
    exact assembles_of_tokenise (Alternative.ofSpelling?_eq_ok_iff.1 halt).1

/-- A text that is not empty is no pattern exactly if one of its spellings is no glob, and the first
such one says why. -/
theorem ofString?_eq_error_iff {text : String} (hne : text ≠ "") {e : PatternError} :
    Pattern.ofString? text = .error e ↔
      ∃ f, (spellings text.toList).mapM Alternative.ofSpelling? = .error f ∧
        e = .invalid text f := by
  have hempty : ¬ text.isEmpty = true := by simpa using hne
  rw [Pattern.ofString?, if_neg hempty]
  cases (spellings text.toList).mapM Alternative.ofSpelling? <;> simp [eq_comm]

/-- **Which patterns are accepted.** A text that is not empty is a pattern exactly if each of its
spellings closes its classes. Otherwise the fault is at the first bracket that opens no class, in
the first spelling that has one, counted with the stars collapsed; no pattern has another fault, and
all that read it agree on its classes. -/
theorem ofString?_iff_closesClasses {text : String} (hne : text ≠ "") :
    ((∃ p, Pattern.ofString? text = .ok p) ↔ ∀ w ∈ spellings text.toList, ClosesClasses w) ∧
    (∀ e, Pattern.ofString? text = .error e ↔
      ∃ before w after front rest, spellings text.toList = before ++ w :: after ∧
        (∀ v ∈ before, ClosesClasses v) ∧ ¬ ClosesClasses w ∧
        collapseStars w = front ++ '[' :: rest ∧ ClosesClasses front ∧ Bracket.split rest = none ∧
        e = .invalid text ⟨front.length, .openBracket⟩) ∧
    FaultKind.openBracket.message = "invalid range pattern" ∧
    ∀ w ∈ spellings text.toList, IsReadAlike text.toList w := by
  have hnil : text.toList ≠ [] := by simpa using hne
  refine ⟨?_, fun e => ?_, rfl, fun w => isReadAlike_of_mem_spellings⟩
  · rw [exists_ofString?_eq_ok_iff, and_iff_right hnil]
    simp only [Alternative.exists_ofSpelling?_eq_ok_iff]
  · rw [ofString?_eq_error_iff hne]
    constructor
    · -- The fault is in the first spelling that is none, at the bracket that is open there.
      rintro ⟨f, hf, rfl⟩
      obtain ⟨before, w, after, hsplit, hbefore, hw⟩ := mapM_eq_error_iff.1 hf
      obtain ⟨k, hk, rfl⟩ := Alternative.ofSpelling?_eq_error_iff.1 hw
      have hopen : ¬ ClosesClasses w := by
        rw [← closesClasses_collapseStars_iff, ← openBracket?_eq_none_iff, hk]
        exact Option.some_ne_none k
      obtain ⟨front, rest, hcollapse, rfl, hfront, hrest⟩ := openBracket?_eq_some_iff.1 hk
      refine ⟨before, w, after, front, rest, hsplit, fun v hv => ?_, hopen,
        hcollapse, hfront, hrest, rfl⟩
      exact Alternative.exists_ofSpelling?_eq_ok_iff.1 (hbefore v hv)
    · rintro ⟨before, w, after, front, rest, hsplit, hbefore, -, hcollapse, hfront, hrest, rfl⟩
      have hk : openBracket? (collapseStars w) = some front.length :=
        openBracket?_eq_some_iff.2 ⟨front, rest, hcollapse, rfl, hfront, hrest⟩
      refine ⟨⟨front.length, .openBracket⟩, ?_, rfl⟩
      refine mapM_eq_error_iff.2 ⟨before, w, after, hsplit, fun v hv => ?_, ?_⟩
      · exact Alternative.exists_ofSpelling?_eq_ok_iff.2 (hbefore v hv)
      · exact Alternative.ofSpelling?_eq_error_iff.2 ⟨_, hk, rfl⟩

/-- The second spelling of `x**{a,[b}` leaves a class open; the stars before it count as one. -/
theorem ofString?_openBracket : Pattern.ofString? "x**\x7ba,[b\x7d" =
    .error (.invalid "x**\x7ba,[b\x7d" ⟨2, .openBracket⟩) := by
  obtain ⟨-, herror, -⟩ := @ofString?_iff_closesClasses "x**\x7ba,[b\x7d" (by decide)
  refine (herror _).2 ⟨["x**a".toList], "x**[b".toList, [], "x*".toList, "b".toList, ?_⟩
  decide +kernel

end ImportLint.Glob
