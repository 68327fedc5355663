import ImportLint.Proofs.Path.Names
import ImportLint.Proofs.Path.Order
import Mathlib.Data.List.DropRight

/-!
# Paths relative to a directory

A path that starts with a directory, component by component, is the directory and a rest. The rest
is a path of its own: its components are those of the path that follow those of the directory, and
if there are any, it has the extension of the path. The rest of a path that names lead to is made of
the names, and paths in one directory stand in the order of their rests.
-/

namespace ImportLint.Path

variable {p dir rel : Path} {segments rest : List (List UInt8)} {s : List UInt8}
  {c : Component} {cs : List Component}

/-! ## Segments that say nothing -/

/-- A segment is no component exactly if it is idle. -/
theorem component?_eq_none_iff : component? s = none ↔ isIdle s = true := by
  unfold component?
  split
  · simp [*]
  · split <;> simp [*]

/-- Only the start of a path can be a root or the directory itself. -/
theorem component?_eq_some (h : component? s = some c) : c ≠ .root ∧ c ≠ .here := by
  unfold component? at h
  split at h
  · cases h
  · split at h <;> cases h <;> simp

/-- Idle segments in front add no components. -/
theorem filterMap_dropWhile_isIdle (segments : List (List UInt8)) :
    (segments.dropWhile isIdle).filterMap component? = segments.filterMap component? := by
  induction segments with
  | nil => rfl
  | cons s segments ih =>
    by_cases hidle : isIdle s = true
    · rw [List.dropWhile_cons_of_pos hidle, ih,
        List.filterMap_cons_none (component?_eq_none_iff.2 hidle)]
    · rw [List.dropWhile_cons_of_neg hidle]

/-- Idle segments at the end add no components. -/
theorem filterMap_dropEndWhile_isIdle (segments : List (List UInt8)) :
    (dropEndWhile isIdle segments).filterMap component? = segments.filterMap component? := by
  rw [dropEndWhile, List.filterMap_reverse, filterMap_dropWhile_isIdle, List.filterMap_reverse,
    List.reverse_reverse]

/-- The components of a path are those of its segments, after a root or the directory itself. -/
theorem exists_components_eq (p : Path) :
    ∃ start, p.components = start ++ p.segments.filterMap component? ∧
      (start = [] ∨ start = [.root] ∨ start = [.here]) := by
  refine ⟨_, rfl, ?_⟩
  split
  · exact .inr (.inl rfl)
  · split
    · exact .inr (.inr rfl)
    · exact .inl rfl

/-- A segment is a component other than the root and the directory itself. -/
theorem ne_root_of_mem_filterMap (hc : c ∈ segments.filterMap component?) :
    c ≠ .root ∧ c ≠ .here := by
  obtain ⟨s, -, hs⟩ := List.mem_filterMap.1 hc
  exact component?_eq_some hs

/-- A first component that is a root or the directory itself is the start of the path. -/
theorem filterMap_segments_of_start (h : p.components = c :: cs) (hc : c = .root ∨ c = .here) :
    p.segments.filterMap component? = cs := by
  obtain ⟨start, hp, hstart⟩ := exists_components_eq p
  rw [h] at hp
  rcases hstart with rfl | rfl | rfl
  · have hmem : c ∈ p.segments.filterMap component? := by
      rw [← List.nil_append (p.segments.filterMap component?), ← hp]
      exact List.mem_cons_self
    obtain ⟨hroot, hhere⟩ := ne_root_of_mem_filterMap hmem
    rcases hc with rfl | rfl
    · exact absurd rfl hroot
    · exact absurd rfl hhere
  · exact (List.cons.inj hp).2.symm
  · exact (List.cons.inj hp).2.symm

/-- Without such a start, a path has the components of its segments. -/
theorem filterMap_segments_of_no_start (h : ∀ c ∈ p.components.head?, c ≠ .root ∧ c ≠ .here) :
    p.segments.filterMap component? = p.components := by
  obtain ⟨start, hp, hstart⟩ := exists_components_eq p
  rcases hstart with rfl | rfl | rfl
  · exact hp.symm
  · exact absurd rfl (h .root (by rw [hp]; rfl)).1
  · exact absurd rfl (h .here (by rw [hp]; rfl)).2

/-! ## Paths made of segments -/

/-- The first segment of an absolute path is empty. -/
theorem exists_segments_of_isAbsolute (h : p.isAbsolute = true) :
    ∃ rest, p.segments = [] :: rest := by
  obtain ⟨bytes⟩ := p
  cases bytes with
  | nil => cases h
  | cons b bytes =>
    obtain rfl : b = slash := by simpa [isAbsolute] using h
    exact ⟨_, pieces_cons_self slash bytes⟩

/-- A path that is made of segments has their components, if the first of them says something. -/
theorem components_ofSegments (hslash : ∀ s ∈ segments, slash ∉ s)
    (hhead : ∀ s ∈ segments.head?, isIdle s = false) :
    (ofSegments segments).components = segments.filterMap component? := by
  have hprefix : dropEndWhile isIdle segments <+: segments := List.rdropWhile_prefix isIdle segments
  rw [← filterMap_dropEndWhile_isIdle segments, ofSegments]
  generalize dropEndWhile isIdle segments = kept at hprefix
  cases kept with
  | nil => rfl
  | cons s kept =>
    obtain ⟨dropped, rfl⟩ := hprefix
    have hidle : isIdle s = false := hhead s rfl
    obtain ⟨hempty, hdot⟩ : s ≠ [] ∧ s ≠ [dot] := by simpa [isIdle] using hidle
    have hpieces : (⟨joinPieces slash (s :: kept)⟩ : Path).segments = s :: kept :=
      pieces_joinPieces (List.cons_ne_nil s kept) fun t ht =>
        hslash t (List.mem_append_left dropped ht)
    -- Joined segments make an absolute path only if the first is empty.
    have habs : ¬ (⟨joinPieces slash (s :: kept)⟩ : Path).isAbsolute = true := by
      intro habs
      obtain ⟨rest, hrest⟩ := exists_segments_of_isAbsolute habs
      rw [hpieces] at hrest
      exact hempty (List.cons.inj hrest).1
    rw [components, if_neg habs, hpieces, if_neg (by simpa using hdot), List.nil_append]

/-! ## The rest of a path -/

/-- Stripping passes over idle segments. -/
theorem stripSegments?_cons_idle (h : isIdle s = true) :
    stripSegments? cs (s :: segments) = stripSegments? cs segments := by
  cases cs with
  | nil => rw [stripSegments?, stripSegments?, List.dropWhile_cons_of_pos h]
  | cons c cs => rw [stripSegments?, stripSegments?, List.dropWhile_cons_of_pos h]

/-- Stripping takes a component off if the segment is that component. -/
theorem stripSegments?_cons (h : component? s = some c) :
    stripSegments? (c :: cs) (s :: segments) = stripSegments? cs segments := by
  have hidle : ¬ isIdle s = true := by
    rw [← component?_eq_none_iff, h]
    exact Option.some_ne_none c
  rw [stripSegments?, List.dropWhile_cons_of_neg hidle]
  simp only [if_pos h]

/-- What follows the segments of the components that are taken off is left, from where it says
something on. -/
theorem stripSegments?_append (front rest : List (List UInt8)) :
    stripSegments? (front.filterMap component?) (front ++ rest) = some (rest.dropWhile isIdle) := by
  induction front with
  | nil => rfl
  | cons s front ih =>
    cases hs : component? s with
    | none =>
      rw [List.filterMap_cons_none hs, List.cons_append,
        stripSegments?_cons_idle (component?_eq_none_iff.1 hs), ih]
    | some c => rw [List.filterMap_cons_some hs, List.cons_append, stripSegments?_cons hs, ih]

/-- The segments are those of the components that are taken off, and what is left. -/
theorem exists_of_stripSegments? (h : stripSegments? cs segments = some rest) :
    ∃ front, segments = front ++ rest ∧ front.filterMap component? = cs ∧
      ∀ s ∈ rest.head?, isIdle s = false := by
  -- By induction on the segments, of which an idle one takes off no component.
  induction segments generalizing cs with
  | nil =>
    cases cs with
    | nil =>
      obtain rfl := Option.some.inj h
      exact ⟨[], rfl, rfl, by simp⟩
    | cons c cs => cases h
  | cons s segments ih =>
    by_cases hidle : isIdle s = true
    · rw [stripSegments?_cons_idle hidle] at h
      obtain ⟨front, rfl, rfl, hrest⟩ := ih h
      exact ⟨s :: front, rfl, List.filterMap_cons_none (component?_eq_none_iff.2 hidle), hrest⟩
    · cases cs with
      | nil =>
        rw [stripSegments?, List.dropWhile_cons_of_neg hidle] at h
        obtain rfl := Option.some.inj h
        exact ⟨[], rfl, rfl, by simpa using hidle⟩
      | cons c cs =>
        by_cases hs : component? s = some c
        · rw [stripSegments?_cons hs] at h
          obtain ⟨front, rfl, rfl, hrest⟩ := ih h
          exact ⟨s :: front, rfl, List.filterMap_cons_some hs, hrest⟩
        · rw [stripSegments?, List.dropWhile_cons_of_neg hidle] at h
          simp only [if_neg hs] at h
          cases h

/-- Components that come first can be taken off. -/
theorem exists_stripSegments?_eq_some {ds : List Component}
    (h : segments.filterMap component? = cs ++ ds) :
    ∃ rest, stripSegments? cs segments = some rest := by
  induction segments generalizing cs with
  | nil =>
    obtain rfl : cs = [] := List.append_eq_nil_iff.1 h.symm |>.1
    exact ⟨[], rfl⟩
  | cons s segments ih =>
    cases hs : component? s with
    | none =>
      rw [List.filterMap_cons_none hs] at h
      rw [stripSegments?_cons_idle (component?_eq_none_iff.1 hs)]
      exact ih h
    | some c =>
      rw [List.filterMap_cons_some hs] at h
      cases cs with
      | nil => exact ⟨_, rfl⟩
      | cons d cs =>
        obtain ⟨rfl, htail⟩ := List.cons.inj h
        rw [stripSegments?_cons hs]
        exact ih htail

/-- The components of a path are those of the directory and those of the rest. -/
theorem components_of_stripPrefix? (h : p.stripPrefix? dir = some rel) :
    p.components = dir.components ++ rel.components := by
  have hstrip {cs : List Component}
    (hcs : (stripSegments? cs p.segments).map ofSegments = some rel) :
      p.segments.filterMap component? = cs ++ rel.components := by
    obtain ⟨rest, hrest, rfl⟩ := Option.map_eq_some_iff.1 hcs
    obtain ⟨front, hsegments, rfl, hhead⟩ := exists_of_stripSegments? hrest
    have hslash : ∀ s ∈ rest, slash ∉ s := by
      intro s hs
      have hmem : s ∈ p.segments := hsegments ▸ List.mem_append_right front hs
      exact notMem_of_mem_pieces hmem
    rw [components_ofSegments hslash hhead, hsegments, List.filterMap_append]
  unfold stripPrefix? at h
  split at h
  · next cs ps hdir hp =>
    rw [hp, hdir, ← filterMap_segments_of_start hp (.inl rfl), hstrip h, List.cons_append]
  · next cs ps hdir hp =>
    rw [hp, hdir, ← filterMap_segments_of_start hp (.inr rfl), hstrip h, List.cons_append]
  · next hdir =>
    obtain rfl := Option.some.inj h
    rw [hdir, List.nil_append]
  -- One of the paths has a start that the other does not have.
  · cases h
  · cases h
  · cases h
  · cases h
  · next hroot hhere _ _ =>
    have hstart : ∀ c ∈ p.components.head?, c ≠ .root ∧ c ≠ .here := by
      intro c hc
      obtain ⟨cs, hcs⟩ := List.head?_eq_some_iff.1 hc
      refine ⟨?_, ?_⟩
      · rintro rfl
        exact hroot _ hcs
      · rintro rfl
        exact hhere _ hcs
    rw [← filterMap_segments_of_no_start hstart, hstrip h]

/-- A path that has the components of a directory and further ones has a rest. -/
theorem exists_stripPrefix?_eq_some (h : p.components = dir.components ++ cs) :
    ∃ rel, p.stripPrefix? dir = some rel := by
  have hstrip {ds es : List Component} (hds : p.segments.filterMap component? = ds ++ es) :
      ∃ rel, (stripSegments? ds p.segments).map ofSegments = some rel := by
    obtain ⟨rest, hrest⟩ := exists_stripSegments?_eq_some hds
    exact ⟨ofSegments rest, by rw [hrest, Option.map_some]⟩
  cases hdir : dir.components with
  | nil =>
    refine ⟨p, ?_⟩
    unfold stripPrefix?
    rw [hdir]
  | cons d ds =>
    rw [hdir, List.cons_append] at h
    unfold stripPrefix?
    rw [hdir, h]
    -- A root, or the directory itself, is the start of both paths and not among the segments.
    cases d with
    | root => exact hstrip (filterMap_segments_of_start h (.inl rfl))
    | here => exact hstrip (filterMap_segments_of_start h (.inr rfl))
    | parent =>
      have hsegments := filterMap_segments_of_no_start (p := p) (by rw [h]; simp)
      exact hstrip (hsegments.trans h)
    | named name =>
      have hsegments := filterMap_segments_of_no_start (p := p) (by rw [h]; simp)
      exact hstrip (hsegments.trans h)

/-- Paths that end in the same components lead to files of the same extension. -/
theorem extension?_eq_of_components (h : p.components = cs ++ rel.components)
    (hne : rel.components ≠ []) : p.extension? = rel.extension? := by
  have hlast : p.components.getLast? = rel.components.getLast? := by
    rw [h, List.getLast?_append_of_ne_nil cs hne]
  rw [extension?, extension?, fileName?, fileName?, hlast]

/-! ## The rest of a path that names lead to -/

/-- From one absolute path another is stripped segment by segment. -/
theorem stripPrefix?_of_isAbsolute (hdir : dir.isAbsolute = true) (hp : p.isAbsolute = true) :
    p.stripPrefix? dir =
      (stripSegments? (dir.segments.filterMap component?) p.segments).map ofSegments := by
  have hstart {q : Path} (hq : q.isAbsolute = true) :
      q.components = .root :: q.segments.filterMap component? := by
    rw [components, if_pos hq]
    rfl
  unfold stripPrefix?
  rw [hstart hdir, hstart hp]

/-- An absolute path stripped of itself is empty. -/
theorem stripPrefix?_self (habs : dir.isAbsolute = true) : dir.stripPrefix? dir = some ⟨[]⟩ := by
  have hnothing := stripSegments?_append dir.segments []
  rw [List.append_nil, List.dropWhile_nil] at hnothing
  rw [stripPrefix?_of_isAbsolute habs habs, hnothing]
  rfl

/-- Stripping undoes joining proper names. -/
theorem stripPrefix?_join (habs : dir.isAbsolute = true) {names : List FileName} (hne : names ≠ [])
    (hnames : ∀ n ∈ names, isProperName n = true) :
    (dir / pathOfNames names).stripPrefix? dir = some (pathOfNames names) := by
  have hidle : ∀ n ∈ names, ¬ isIdle n = true := by
    intro n hn
    exact FileTree.not_isIdle_of_isProperName (hnames n hn)
  obtain ⟨front, hdir, hjoin⟩ := exists_segments_join dir
  have hrest : names.dropWhile isIdle = names := by
    rw [List.dropWhile_eq_self_iff]
    intro hpos
    exact hidle _ (List.get_mem names ⟨0, hpos⟩)
  have hkept : dropEndWhile isIdle names = names :=
    List.rdropWhile_eq_self_iff.2 fun hne => hidle _ (List.getLast_mem hne)
  rw [stripPrefix?_of_isAbsolute habs (isAbsolute_join habs _),
    filterMap_component?_of_segments hdir, hjoin _ (isAbsolute_pathOfNames hne hnames),
    segments_pathOfNames hne hnames, stripSegments?_append, hrest,
    Option.map_some, ofSegments, hkept]
  rfl

/-- The components of a path made of proper names are these names. -/
theorem components_pathOfNames {names : List FileName}
    (hnames : ∀ n ∈ names, isProperName n = true) :
    (pathOfNames names).components = names.map .named := by
  by_cases hne : names = []
  · subst hne
    rfl
  · have habs := isAbsolute_pathOfNames hne hnames
    have hsegments := segments_pathOfNames hne hnames
    have hhead : names.head? ≠ some [dot] := by
      intro hhead
      have hproper := hnames _ (List.mem_of_mem_head? hhead)
      exact (isProperName_iff.1 hproper).2.2.1 rfl
    rw [components, habs, hsegments, if_neg Bool.false_ne_true, if_neg (by simpa using hhead),
      filterMap_component?_names hnames, List.nil_append]

/-! ## The order of paths in one directory -/

/-- Components are compared by what comes after those they share. -/
theorem compareComponents_append (cs ds es : List Component) :
    compareComponents (cs ++ ds) (cs ++ es) = compareComponents ds es := by
  induction cs with
  | nil => rfl
  | cons c cs ih =>
    have hc : c.compare c = .eq := Component.compare_eq_eq_iff.2 rfl
    rw [List.cons_append, List.cons_append, compareComponents, hc, Ordering.eq_then, ih]

end ImportLint.Path
