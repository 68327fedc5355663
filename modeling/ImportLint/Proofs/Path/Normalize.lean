import ImportLint.Analysis.Discovery
import ImportLint.Proofs.FileTree.Places
import ImportLint.Proofs.Text.Lossy

/-!
# Paths as texts

A path is compared with patterns as a text: decoded, with slashes for backslashes, and without a
leading `./`. One `./` is taken off and no more, so the text starts with `./` exactly if the path
starts with two of them. The text of a path that is made of names is the names, decoded one by one.
-/

namespace ImportLint

/-- A prefix cannot be stripped exactly where a text does not start with it. -/
theorem stripPrefix?_eq_none_iff {α : Type} [DecidableEq α] {p s : List α} :
    stripPrefix? p s = none ↔ ¬ p <+: s := by
  rw [Option.eq_none_iff_forall_ne_some]
  constructor
  · rintro h ⟨r, hr⟩
    exact h r (stripPrefix?_eq_some_iff.2 hr.symm)
  · intro h r hr
    exact h ⟨r, (stripPrefix?_eq_some_iff.1 hr).symm⟩

namespace Path

/-- A path as a text with slashes for backslashes. -/
def slashed (p : Path) : List Char :=
  (Utf8.decodeLossy p.bytes).map fun c => if c = '\\' then '/' else c

/-- A path with `./` before it. -/
def inHere (p : Path) : Path := ⟨dot :: slash :: p.bytes⟩

/-- There are no backslashes in a path that is slashed. -/
theorem backslash_notMem_slashed (p : Path) : '\\' ∉ p.slashed := by
  intro h
  obtain ⟨c, -, hc⟩ := List.mem_map.1 h
  split at hc
  · cases hc
  · next hne => exact hne hc

/-- A path written from here starts with a dot and a slash. -/
theorem slashed_inHere (p : Path) : p.inHere.slashed = '.' :: '/' :: p.slashed := by
  have hdot : dot.toNat < 0x80 := by decide
  have hslash : slash.toNat < 0x80 := by decide
  rw [slashed, inHere, Utf8.decodeLossy_cons hdot, Utf8.decodeLossy_cons hslash]
  rfl

/-- A text without backslashes is slashed as it is. -/
theorem slashed_ofString {s : List Char} (h : '\\' ∉ s) :
    (ofString (String.ofList s)).slashed = s := by
  rw [slashed, ofString, String.toList_ofList, Utf8.decodeLossy_encode]
  refine (List.map_congr_left fun c hc => if_neg ?_).trans (List.map_id s)
  rintro rfl
  exact h hc

/-! ## One leading `./` -/

/-- A path that starts with a dot and a slash is normalized without them. -/
theorem normalize_of_startsWith {p : Path} {rest : List Char} (h : p.slashed = '.' :: '/' :: rest) :
    p.normalize = rest := by
  have hstrip : ImportLint.stripPrefix? ['.', '/'] p.slashed = some rest :=
    stripPrefix?_eq_some_iff.2 h
  show (ImportLint.stripPrefix? ['.', '/'] p.slashed).getD p.slashed = rest
  rw [hstrip, Option.getD_some]

/-- Any other path is normalized by its slashes alone. -/
theorem normalize_of_not_startsWith {p : Path} (h : ¬ ['.', '/'] <+: p.slashed) :
    p.normalize = p.slashed := by
  show (ImportLint.stripPrefix? ['.', '/'] p.slashed).getD p.slashed = p.slashed
  rw [stripPrefix?_eq_none_iff.2 h, Option.getD_none]

/-- Whatever a path is, the `./` before it is the one that is taken off. -/
theorem normalize_inHere (p : Path) : p.inHere.normalize = p.slashed :=
  normalize_of_startsWith (slashed_inHere p)

/-- There is nothing to strip exactly if a path does not start with a dot and a slash. -/
theorem normalize_eq_slashed_iff {p : Path} : p.normalize = p.slashed ↔
    ¬ ['.', '/'] <+: p.slashed := by
  refine ⟨?_, normalize_of_not_startsWith⟩
  rintro h ⟨rest, hrest⟩
  -- What has lost two characters is shorter.
  have hlength := congrArg List.length hrest
  rw [← h, normalize_of_startsWith hrest.symm, List.length_append] at hlength
  exact absurd hlength (by simp)

/-- There are no backslashes in a normalized path. -/
theorem backslash_notMem_normalize (p : Path) : '\\' ∉ p.normalize := by
  by_cases h : ['.', '/'] <+: p.slashed
  · obtain ⟨rest, hrest⟩ := h
    rw [normalize_of_startsWith hrest.symm]
    exact fun hmem => backslash_notMem_slashed p (hrest ▸ List.mem_append_right _ hmem)
  · rw [normalize_of_not_startsWith h]
    exact backslash_notMem_slashed p

/-- A normalized path still starts with a dot and a slash if the path did so twice. -/
theorem normalize_startsWith_iff {p : Path} :
    ['.', '/'] <+: p.normalize ↔ ['.', '/', '.', '/'] <+: p.slashed := by
  by_cases h : ['.', '/'] <+: p.slashed
  · obtain ⟨rest, hrest⟩ := h
    rw [normalize_of_startsWith hrest.symm, ← hrest]
    exact (List.prefix_append_right_inj ['.', '/']).symm
  · rw [normalize_of_not_startsWith h]
    exact iff_of_false h fun htwo => h ((List.prefix_append ['.', '/'] ['.', '/']).trans htwo)

/-- To normalize a text again changes nothing exactly if there is no `./` left. -/
theorem normalize_normalize_iff {p : Path} :
    (ofString (String.ofList p.normalize)).normalize = p.normalize ↔
      ¬ ['.', '/', '.', '/'] <+: p.slashed := by
  rw [← normalize_startsWith_iff]
  have hslashed := slashed_ofString (backslash_notMem_normalize p)
  have hiff := @normalize_eq_slashed_iff (ofString (String.ofList p.normalize))
  rwa [hslashed] at hiff

/-! ## Paths made of names -/

/-- The byte of a backslash. -/
def backslash : UInt8 := 92

/-- The text of names put together is the texts of the names put together. -/
theorem decodeLossy_joinPieces {names : List FileName} (hne : names ≠ []) :
    Utf8.decodeLossy (joinPieces slash names) = joinPieces '/' (names.map Utf8.decodeLossy) := by
  induction names with
  | nil => exact absurd rfl hne
  | cons n ns ih =>
    by_cases hns : ns = []
    · rw [hns]
      rfl
    · have hslash : slash.toNat < 0x80 := by decide
      rw [joinPieces_cons hns, Utf8.decodeLossy_append hslash, ih hns, List.map_cons,
        joinPieces_cons (by simpa using hns)]
      rfl

section

variable {names : List FileName} (hnames : ∀ n ∈ names, isProperName n = true)

include hnames

/-- There are no slashes in names as they are decoded. -/
theorem slash_notMem_decodeLossy : ∀ s ∈ names.map Utf8.decodeLossy, '/' ∉ s := by
  intro s hs hslash
  obtain ⟨n, hn, rfl⟩ := List.mem_map.1 hs
  exact (isProperName_iff.1 (hnames n hn)).2.1 (Utf8.mem_of_mem_decodeLossy (by decide) hslash)

/-- The first name is not a dot, so there is no `./` before a path made of names. -/
theorem not_startsWith_joinPieces (hne : names ≠ []) :
    ¬ ['.', '/'] <+: joinPieces '/' (names.map Utf8.decodeLossy) := by
  rintro ⟨rest, hrest⟩
  have hpieces := pieces_joinPieces (by simpa using hne) (slash_notMem_decodeLossy hnames)
  obtain ⟨n, ns, rfl⟩ := List.exists_cons_of_ne_nil hne
  have hfirst : pieces '/' (['.', '/'] ++ rest) = ['.'] :: pieces '/' rest := rfl
  rw [← hrest, hfirst, List.map_cons] at hpieces
  have hdot : Utf8.decodeLossy n = ['.'] := (List.cons.inj hpieces).1.symm
  have hn : n = [dot] := by
    have hno : Char.ofNat 0xFFFD ∉ Utf8.decodeLossy n := by
      rw [hdot]
      decide
    rw [Utf8.eq_encode_of_decodeLossy hno, hdot]
    rfl
  exact (isProperName_iff.1 (hnames n List.mem_cons_self)).2.2.1 hn

variable (hslash : ∀ n ∈ names, backslash ∉ n)

include hslash

/-- **The text of a path made of names** without backslashes: the texts of the names, with slashes
between them. -/
theorem normalize_pathOfNames (hne : names ≠ []) :
    (pathOfNames names).normalize = joinPieces '/' (names.map Utf8.decodeLossy) := by
  have hslashed : (pathOfNames names).slashed = joinPieces '/' (names.map Utf8.decodeLossy) := by
    rw [slashed, pathOfNames, decodeLossy_joinPieces hne]
    refine (List.map_congr_left fun c hc => if_neg ?_).trans (List.map_id _)
    rintro rfl
    obtain ⟨s, hs, hc⟩ := mem_of_mem_joinPieces (by decide) hc
    obtain ⟨n, hn, rfl⟩ := List.mem_map.1 hs
    exact hslash n hn (Utf8.mem_of_mem_decodeLossy (by decide) hc)
  have hstart := not_startsWith_joinPieces hnames hne
  rw [normalize_of_not_startsWith (hslashed ▸ hstart), hslashed]

/-- The pieces of a normalized path are the names it is made of, decoded. -/
theorem pieces_normalize_pathOfNames (hne : names ≠ []) :
    pieces '/' (pathOfNames names).normalize = names.map Utf8.decodeLossy := by
  rw [normalize_pathOfNames hnames hslash hne,
    pieces_joinPieces (by simpa using hne) (slash_notMem_decodeLossy hnames)]

end

end Path

end ImportLint
