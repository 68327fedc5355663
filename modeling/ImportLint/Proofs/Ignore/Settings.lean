import ImportLint.Ignore.Settings

/-!
# What the settings of git name

The reader of the settings finds a value where the regular expression has one: a text that starts
with the setting, in the pieces that the expression asks for, and of the words that may be the value
the shortest.
-/

namespace ImportLint.Ignore.Settings

variable {s t v w front back : List UInt8}

/-! ## The pieces of the expression -/

/-- Some bytes are **blank** if all of them are white space. -/
def IsBlank (s : List UInt8) : Prop := ∀ b ∈ s, isSpace b = true

/-- Some bytes are a **word** if there are any and none is white space. -/
def IsWord (s : List UInt8) : Prop := s ≠ [] ∧ ∀ b ∈ s, isSpace b = false

/-- Some bytes are **at most a quote**. -/
def IsQuote (s : List UInt8) : Prop := s = [] ∨ s = [quote]

/-- What **follows a line**: the end of the line or of the text. -/
def FollowsLine (s : List UInt8) : Prop := ∀ b ∈ s.head?, b = lineEnd

/-- A text **starts with a word** on a line where nothing but white space and a quote comes after
it. -/
inductive StartsWithWord (s v : List UInt8) : Prop
  | intro {a q b rest : List UInt8} (hs : s = v ++ a ++ q ++ b ++ rest) (hv : IsWord v)
      (ha : IsBlank a)
      (hq : IsQuote q) (hb : IsBlank b) (hrest : FollowsLine rest)

/-- A text **starts with a value**, maybe after a quote. -/
inductive StartsWithValue (s v : List UInt8) : Prop
  | intro {a q b r : List UInt8} (hs : s = a ++ q ++ b ++ r) (ha : IsBlank a) (hq : IsQuote q)
      (hb : IsBlank b) (hr : StartsWithWord r v)

/-- A text **starts with the setting** and a value of it. -/
inductive StartsWithSetting (s v : List UInt8) : Prop
  | intro {a k b r : List UInt8} (hs : s = a ++ k ++ b ++ equals :: r) (ha : IsBlank a)
      (hk : k.map lower = key) (hb : IsBlank b) (hr : StartsWithValue r v)

/-! ## White space -/

/-- No bytes are blank. -/
@[simp] theorem isBlank_nil : IsBlank [] := List.forall_mem_nil _

/-- Bytes are blank if each part of them is. -/
theorem isBlank_append : IsBlank (s ++ t) ↔ IsBlank s ∧ IsBlank t := List.forall_mem_append

/-- The spaces that bytes start with are blank. -/
theorem isBlank_takeWhile (s : List UInt8) : IsBlank (s.takeWhile isSpace) := fun b hb =>
  List.all_eq_true.1 List.all_takeWhile b hb

/-- White space before something else is dropped, and no more. -/
theorem dropWhile_isSpace (hs : IsBlank s) (ht : ∀ b ∈ t.head?, isSpace b = false) :
    (s ++ t).dropWhile isSpace = t :=
  dropWhile_append_of_ends hs ht

/-- A word, with what follows it, starts with no space. -/
theorem IsWord.head (h : IsWord v) : ∀ b ∈ (v ++ t).head?, isSpace b = false := by
  obtain ⟨b, bs, rfl⟩ := List.exists_cons_of_ne_nil h.1
  simpa using h.2 b List.mem_cons_self

/-- A word ends in no space. -/
theorem IsWord.getLast (h : IsWord v) : ∀ b ∈ v.getLast?, isSpace b = false := fun b hb =>
  h.2 b (List.mem_of_mem_getLast? hb)

/-- What starts with a word starts with no space. -/
theorem StartsWithWord.head (h : StartsWithWord s v) : ∀ b ∈ s.head?, isSpace b = false := by
  obtain ⟨rfl, hv, -, -, -, -⟩ := h
  simpa only [List.append_assoc] using hv.head

/-- Bytes are read as a word exactly if they are one. -/
@[simp] theorem word?_eq_some_iff : word? s = some v ↔ s = v ∧ IsWord v := by
  have hno : (s.isEmpty || s.any isSpace) = true ↔ ¬ IsWord s := by
    simp [IsWord, Decidable.or_iff_not_imp_left]
  unfold word?
  split
  · next h =>
    simp only [reduceCtorEq, false_iff, not_and]
    rintro rfl
    exact hno.1 h
  · next h =>
    have hs : IsWord s := Classical.not_not.1 fun hs => h (hno.2 hs)
    rw [Option.some_inj]
    exact (and_iff_left_of_imp fun heq => heq ▸ hs).symm

/-! ## The end of a line -/

/-- A line without the white space at its end. -/
def trimmedLine (s : List UInt8) : List UInt8 := dropEndWhile isSpace (s.takeWhile (· != lineEnd))

/-- White space at the end of a text is white space on the line that it starts on. -/
theorem isBlank_takeWhile_lineEnd (hs : IsBlank s) (ht : FollowsLine t) :
    IsBlank ((s ++ t).takeWhile (· != lineEnd)) := by
  induction s with
  | nil =>
    cases t with
    | nil => simp
    | cons b t => simp [show b = lineEnd from ht b rfl]
  | cons b s ih =>
    obtain ⟨hb, hs⟩ := List.forall_mem_cons.1 hs
    rw [List.cons_append, List.takeWhile_cons]
    split
    · exact List.forall_mem_cons.2 ⟨hb, ih hs⟩
    · simp

/-- No byte of a word ends the line. -/
theorem takeWhile_lineEnd_append (h : ∀ b ∈ s, isSpace b = false) :
    (s ++ t).takeWhile (· != lineEnd) = s ++ t.takeWhile (· != lineEnd) := by
  refine List.takeWhile_append_of_pos fun b hb => ?_
  rw [bne_iff_ne]
  rintro rfl
  cases h _ hb

/-- White space and what comes after it: the line ends in the one or in the other. -/
theorem isBlank_takeWhile_or (hs : IsBlank s) (t : List UInt8) :
    IsBlank ((s ++ t).takeWhile (· != lineEnd)) ∨
      (s ++ t).takeWhile (· != lineEnd) = s ++ t.takeWhile (· != lineEnd) := by
  by_cases h : lineEnd ∈ s
  · obtain ⟨front, back, rfl⟩ := List.append_of_mem h
    rw [List.append_assoc]
    exact .inl (isBlank_takeWhile_lineEnd (isBlank_append.1 hs).1 (by simp [FollowsLine]))
  · refine .inr (List.takeWhile_append_of_pos fun b hb => ?_)
    rw [bne_iff_ne]
    rintro rfl
    exact h hb

/-- A line that starts with a word is the word but for white space, or there is a quote after it. -/
theorem StartsWithWord.trimmedLine_eq (h : StartsWithWord s v) :
    trimmedLine s = v ∨ ∃ a, IsBlank a ∧ trimmedLine s = v ++ a ++ [quote] := by
  obtain ⟨rfl, hv, ha, hq, hb, hrest⟩ := h
  rename_i a q b rest
  have hline : trimmedLine (v ++ a ++ q ++ b ++ rest) =
      dropEndWhile isSpace (v ++ (a ++ (q ++ b ++ rest)).takeWhile (· != lineEnd)) := by
    simp only [trimmedLine, List.append_assoc, takeWhile_lineEnd_append hv.2]
  have hword {t : List UInt8} (ht : IsBlank t) : dropEndWhile isSpace (v ++ t) = v :=
    dropEndWhile_append_of_ends hv.getLast ht
  rw [hline]
  rcases hq with rfl | rfl
  · rw [List.nil_append, ← List.append_assoc]
    exact .inl (hword (isBlank_takeWhile_lineEnd (isBlank_append.2 ⟨ha, hb⟩) hrest))
  · rcases isBlank_takeWhile_or ha ([quote] ++ b ++ rest) with hblank | heq
    · exact .inl (hword hblank)
    · -- The line goes on after the quote, with white space only.
      refine .inr ⟨a, ha, ?_⟩
      have hquote : ([quote] ++ b ++ rest).takeWhile (· != lineEnd) =
          [quote] ++ (b ++ rest).takeWhile (· != lineEnd) := by
        rw [List.append_assoc]
        exact takeWhile_lineEnd_append (by simp [show isSpace quote = false from rfl])
      rw [heq, hquote, ← List.append_assoc, ← List.append_assoc]
      refine dropEndWhile_append_of_ends ?_ (isBlank_takeWhile_lineEnd hb hrest)
      simp [show isSpace quote = false from rfl]

/-- The reader of a line finds a word where there is one, and the shortest. -/
theorem StartsWithWord.exists_wordOnLine? (h : StartsWithWord s v) :
    ∃ w, wordOnLine? s = some w ∧ w.length ≤ v.length := by
  have hv : IsWord v := by obtain ⟨-, hv, -, -, -, -⟩ := h; exact hv
  have hword : wordOnLine? s = ((stripSuffix? [quote] (trimmedLine s)).bind fun front =>
      word? (dropEndWhile isSpace front)).or (word? (trimmedLine s)) := rfl
  rw [hword]
  rcases h.trimmedLine_eq with heq | ⟨a, ha, heq⟩
  · -- A word that ends in a quote is read without it if something is left, and is shorter then.
    cases hfirst : (stripSuffix? [quote] (trimmedLine s)).bind fun front =>
        word? (dropEndWhile isSpace front) with
    | none => exact ⟨v, by simpa [heq] using hv, Nat.le_refl _⟩
    | some w =>
      obtain ⟨front, hfront, hw⟩ := Option.bind_eq_some_iff.1 hfirst
      obtain ⟨rfl, -⟩ := word?_eq_some_iff.1 hw
      obtain ⟨run, hrun, -⟩ := exists_dropEndWhile_append isSpace front
      refine ⟨_, rfl, ?_⟩
      rw [← heq, stripSuffix?_eq_some_iff.1 hfront, List.length_append]
      have hlength := congrArg List.length hrun
      rw [List.length_append] at hlength
      omega
  · have hfront : stripSuffix? [quote] (trimmedLine s) = some (v ++ a) :=
      stripSuffix?_eq_some_iff.2 heq
    have hdrop : dropEndWhile isSpace (v ++ a) = v := dropEndWhile_append_of_ends hv.getLast ha
    have hfirst : word? v = some v := word?_eq_some_iff.2 ⟨rfl, hv⟩
    exact ⟨v, by rw [hfront, Option.bind_some, hdrop, hfirst]; rfl, Nat.le_refl _⟩

/-- What the reader of a line finds is a word that the line starts with. -/
theorem startsWithWord_of_wordOnLine? (h : wordOnLine? s = some v) : StartsWithWord s v := by
  obtain ⟨run, hrun, hblank⟩ := exists_dropEndWhile_append isSpace (s.takeWhile (· != lineEnd))
  have hs : s = trimmedLine s ++ run ++ s.dropWhile (· != lineEnd) := by
    rw [trimmedLine, ← hrun, List.takeWhile_append_dropWhile]
  have hrest : FollowsLine (s.dropWhile (· != lineEnd)) := by
    intro b hb
    have hnot := List.head?_dropWhile_not (· != lineEnd) s
    simpa [Option.mem_def.1 hb] using hnot
  -- The word stands before the last quote of the line, or is all of it.
  rcases Option.or_eq_some_iff.1 h with hfirst | ⟨-, hlast⟩
  · obtain ⟨front, hfront, hw⟩ := Option.bind_eq_some_iff.1 hfirst
    obtain ⟨rfl, hv⟩ := word?_eq_some_iff.1 hw
    obtain ⟨a, ha, hblank'⟩ := exists_dropEndWhile_append isSpace front
    have hquote : trimmedLine s = front ++ [quote] := stripSuffix?_eq_some_iff.1 hfront
    rw [hquote] at hs
    exact .intro (by rw [← ha]; exact hs) hv hblank' (.inr rfl) hblank hrest
  · obtain ⟨heq, hv⟩ := word?_eq_some_iff.1 hlast
    have heq' : trimmedLine s = v := heq
    rw [heq'] at hs
    exact .intro (by simpa using hs) hv isBlank_nil (.inl rfl) hblank hrest

/-! ## The value -/

/-- The reader of a value finds one where there is one. -/
theorem StartsWithValue.isSome_value? (h : StartsWithValue s v) : (value? s).isSome = true := by
  obtain ⟨rfl, ha, hq, hb, hr⟩ := h
  rename_i a q b r
  obtain ⟨w, hw, -⟩ := hr.exists_wordOnLine?
  unfold value?
  rcases hq with rfl | rfl
  · have hdrop : (a ++ [] ++ b ++ r).dropWhile isSpace = r := by
      rw [List.append_nil]
      exact dropWhile_isSpace (isBlank_append.2 ⟨ha, hb⟩) hr.head
    simp only [hdrop, hw, Option.isSome_or, Option.isSome_some, Bool.or_true]
  · have hdrop : (a ++ [quote] ++ b ++ r).dropWhile isSpace = [quote] ++ (b ++ r) := by
      rw [List.append_assoc, List.append_assoc]
      exact dropWhile_isSpace ha (by simp [show isSpace quote = false from rfl])
    have hstrip : stripPrefix? [quote] ([quote] ++ (b ++ r)) = some (b ++ r) :=
      stripPrefix?_eq_some_iff.2 rfl
    simp only [hdrop, hstrip, Option.bind_some, dropWhile_isSpace hb hr.head, hw, Option.some_or,
      Option.isSome_some]

/-- What the reader of a value finds is one. -/
theorem startsWithValue_of_value? (h : value? s = some v) : StartsWithValue s v := by
  rcases Option.or_eq_some_iff.1 h with hquoted | ⟨-, hplain⟩
  · have hs : s = s.takeWhile isSpace ++ s.dropWhile isSpace := List.takeWhile_append_dropWhile.symm
    obtain ⟨r, hr, hword⟩ := Option.bind_eq_some_iff.1 hquoted
    rw [stripPrefix?_eq_some_iff.1 hr, ← r.takeWhile_append_dropWhile (p := isSpace)] at hs
    exact .intro (by simpa using hs) (isBlank_takeWhile s) (.inr rfl) (isBlank_takeWhile r)
      (startsWithWord_of_wordOnLine? hword)
  · exact .intro (by simp) (isBlank_takeWhile s) (.inl rfl) isBlank_nil
      (startsWithWord_of_wordOnLine? hplain)

/-! ## The setting -/

/-- The name is taken off in any case of its letters. -/
theorem stripKey?_eq_some_iff : stripKey? s = some t ↔ ∃ k, k.map lower = key ∧ s = k ++ t := by
  unfold stripKey?
  constructor
  · intro h
    split at h
    · next hkey => exact ⟨_, hkey, by rw [← Option.some.inj h, List.take_append_drop]⟩
    · cases h
  · rintro ⟨k, hk, rfl⟩
    have hlength : key.length = k.length := by rw [← hk, List.length_map]
    rw [hlength, List.take_left, List.drop_left, if_pos hk]

/-- White space is no letter in either case. -/
theorem lower_of_isSpace {b : UInt8} (h : isSpace b = true) : lower b = b := by
  have hb : b.toNat < 65 := by
    simp only [isSpace, Bool.or_eq_true, Bool.and_eq_true, decide_eq_true_eq, UInt8.le_iff_toNat_le,
      beq_iff_eq] at h
    rcases h with ⟨-, h⟩ | rfl
    · exact Nat.lt_of_le_of_lt h (by decide)
    · decide
  have hletter : ¬ (65 ≤ b && b ≤ 90) = true := by
    simp only [Bool.and_eq_true, decide_eq_true_eq, UInt8.le_iff_toNat_le, not_and]
    exact fun h => absurd h (Nat.not_le_of_lt hb)
  rw [lower, if_neg hletter]

/-- A name does not start with white space. -/
theorem head_of_map_lower {k : List UInt8} (hk : k.map lower = key) :
    ∀ b ∈ (k ++ t).head?, isSpace b = false := by
  cases k with
  | nil => cases hk
  | cons c k =>
    intro b hb
    obtain rfl : c = b := Option.some.inj hb
    have hc : lower c = 101 := (List.cons.inj hk).1
    rw [Bool.eq_false_iff]
    intro hspace
    rw [lower_of_isSpace hspace] at hc
    subst hc
    cases hspace

/-- What the reader of the setting finds is a value of it. -/
theorem startsWithSetting_of_setting? (h : setting? s = some v) : StartsWithSetting s v := by
  obtain ⟨r, hkey, h⟩ := Option.bind_eq_some_iff.1 h
  obtain ⟨t, hequals, hvalue⟩ := Option.bind_eq_some_iff.1 h
  obtain ⟨k, hk, hs⟩ := stripKey?_eq_some_iff.1 hkey
  have hr := stripPrefix?_eq_some_iff.1 hequals
  refine .intro (a := s.takeWhile isSpace) (b := r.takeWhile isSpace) ?_ (isBlank_takeWhile s) hk
    (isBlank_takeWhile r) (startsWithValue_of_value? hvalue)
  calc s = s.takeWhile isSpace ++ s.dropWhile isSpace := List.takeWhile_append_dropWhile.symm
    _ = s.takeWhile isSpace ++ (k ++ (r.takeWhile isSpace ++ r.dropWhile isSpace)) := by
      rw [hs, List.takeWhile_append_dropWhile]
    _ = s.takeWhile isSpace ++ k ++ r.takeWhile isSpace ++ equals :: t := by
      simp only [hr, List.append_assoc, List.singleton_append]

/-- **Settings are read** where the regular expression has them. -/
theorem isSome_setting?_iff : (setting? s).isSome = true ↔ ∃ v, StartsWithSetting s v := by
  constructor
  · intro h
    obtain ⟨v, hv⟩ := Option.isSome_iff_exists.1 h
    exact ⟨v, startsWithSetting_of_setting? hv⟩
  · rintro ⟨v, rfl, ha, hk, hb, hr⟩
    rename_i a k b r
    have hstart : (a ++ k ++ b ++ equals :: r).dropWhile isSpace = k ++ (b ++ equals :: r) := by
      rw [List.append_assoc, List.append_assoc]
      exact dropWhile_isSpace ha (head_of_map_lower hk)
    have hmiddle : (b ++ equals :: r).dropWhile isSpace = [equals] ++ r :=
      dropWhile_isSpace hb (by simp [show isSpace equals = false from rfl])
    have hkey : stripKey? (k ++ (b ++ equals :: r)) = some (b ++ equals :: r) :=
      stripKey?_eq_some_iff.2 ⟨k, hk, rfl⟩
    have hequals : stripPrefix? [equals] ([equals] ++ r) = some r := stripPrefix?_eq_some_iff.2 rfl
    simpa only [setting?, hstart, hkey, Option.bind_eq_bind, Option.bind_some, hmiddle, hequals]
      using hr.isSome_value?

/-- **The first line** with the setting names the file, if its value is text. -/
theorem excludesFile?_eq_some_iff {settings : List UInt8} {p : List Char} :
    excludesFile? settings = some p ↔ ∃ earlier s later v,
      settings :: laterLines settings = earlier ++ s :: later ∧
        (∀ t ∈ earlier, ∀ w, ¬ StartsWithSetting t w) ∧ setting? s = some v ∧
          StartsWithSetting s v ∧ Utf8.decode? v = some p := by
  have hnone (t : List UInt8) : setting? t = none ↔ ∀ w, ¬ StartsWithSetting t w := by
    rw [← Option.not_isSome_iff_eq_none, isSome_setting?_iff, not_exists]
  simp only [excludesFile?, Option.bind_eq_some_iff, List.findSome?_eq_some_iff, hnone]
  constructor
  · rintro ⟨v, ⟨earlier, s, later, hlines, hv, hearlier⟩, hp⟩
    exact ⟨earlier, s, later, v, hlines, hearlier, hv, startsWithSetting_of_setting? hv, hp⟩
  · rintro ⟨earlier, s, later, v, hlines, hearlier, hv, -, hp⟩
    exact ⟨v, ⟨earlier, s, later, hlines, hv, hearlier⟩, hp⟩

example : (excludesFile? (Utf8.encode "[core]\nexcludesFile = /foo/bar".toList)) =
    some "/foo/bar".toList := by decide +kernel

example : excludesFile? (Utf8.encode "[core]\nexcludesFile = \"~/foo/bar\"".toList) =
    some "~/foo/bar".toList := by decide +kernel

example :
  excludesFile? (Utf8.encode "[core]\nexcludesFile = \" \"~/foo/bar \"\"".toList) = none := by
  decide +kernel

example : excludesFile? (Utf8.encode "[core]\nexcludeFile = /foo/bar".toList) = none := by
  decide +kernel

end ImportLint.Ignore.Settings
