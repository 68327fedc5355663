import ImportLint.Analysis.Discovery
import ImportLint.Proofs.FileTree.Follow
import Mathlib.Data.List.Basic

/-!
# Paths made of names

A path to a place below a directory is the path of the directory and then the names on the way to
the place. What such a path is, piece by piece and component by component, depends on the names and
the directory alone, and different places have different paths.
-/

namespace ImportLint

/-- A proper name is a component of its own. -/
theorem Path.component?_eq_named {n : FileName} (h : isProperName n = true) :
    component? n = some (.named n) := by
  obtain ⟨hempty, -, hdot, hdots⟩ := isProperName_iff.1 h
  simp [component?, isIdle, hempty, hdot, hdots]

section

variable {names : List FileName} (hne : names ≠ []) (hnames : ∀ n ∈ names, isProperName n = true)

include hne hnames

/-- The pieces of a path made of names are the names. -/
theorem segments_pathOfNames : (pathOfNames names).segments = names :=
  pieces_joinPieces hne fun n hn => (isProperName_iff.1 (hnames n hn)).2.1

/-- A path made of proper names is relative. -/
theorem isAbsolute_pathOfNames : (pathOfNames names).isAbsolute = false := by
  obtain ⟨n, ns, rfl⟩ := List.exists_cons_of_ne_nil hne
  obtain ⟨hempty, hslash, -⟩ := isProperName_iff.1 (hnames n List.mem_cons_self)
  obtain ⟨b, bs, rfl⟩ := List.exists_cons_of_ne_nil hempty
  have hb : b ≠ Path.slash := fun hb => hslash (hb ▸ List.mem_cons_self)
  cases ns with
  | nil => simpa [pathOfNames, joinPieces, Path.isAbsolute] using hb
  | cons k ks => simpa [pathOfNames, joinPieces, Path.isAbsolute] using hb

end

namespace Path

/-- A directory as it is written ends with a slash or not. What comes before that slash is followed
by the segments of a path in the directory. -/
theorem exists_segments_join (dir : Path) : ∃ front,
    (dir.segments = front ∨ dir.segments = front ++ [[]]) ∧
      ∀ p : Path, p.isAbsolute = false → (dir / p).segments = front ++ p.segments := by
  by_cases hslash : dir.bytes.isEmpty = true ∨ dir.bytes.getLast? = some slash
  · have hjoin {p : Path} (hp : p.isAbsolute = false) : dir / p = ⟨dir.bytes ++ p.bytes⟩ := by
      show join dir p = _
      rw [join, hp, if_neg Bool.false_ne_true, if_pos (by simpa using hslash)]
    -- What is empty, or ends in a slash, has an empty segment at its end, which joining fills.
    rcases hslash with hnil | hlast
    · rw [List.isEmpty_iff] at hnil
      refine ⟨[], .inr (by simp [segments, hnil]), ?_⟩
      intro p hp
      rw [hjoin hp, hnil, List.nil_append, List.nil_append]
    · obtain ⟨bytes, hbytes⟩ := List.getLast?_eq_some_iff.1 hlast
      refine ⟨pieces slash bytes, .inr ?_, ?_⟩
      · rw [segments, hbytes, pieces_append_cons, pieces_nil]
      · intro p hp
        rw [hjoin hp, segments, hbytes, List.append_assoc, List.singleton_append,
          pieces_append_cons, segments]
  · refine ⟨dir.segments, .inl rfl, ?_⟩
    intro p hp
    show (join dir p).segments = _
    rw [join, hp, if_neg Bool.false_ne_true, if_neg (by simpa using hslash),
      segments, pieces_append_cons, segments, segments]

/-- A slash at the end makes one more segment, which says nothing. -/
theorem filterMap_component?_of_segments {dir : Path} {front : List FileName}
    (hdir : dir.segments = front ∨ dir.segments = front ++ [[]]) :
    dir.segments.filterMap component? = front.filterMap component? := by
  rcases hdir with hdir | hdir
  · rw [hdir]
  · rw [hdir, List.filterMap_append]
    simp [component?, isIdle]

/-- Proper names are kept as components, one for each. -/
theorem filterMap_component?_names {names : List FileName}
    (hnames : ∀ n ∈ names, isProperName n = true) : names.filterMap component? = names.map .named :=
  List.filterMap_eq_map_iff_forall_eq_some.2 fun n hn => component?_eq_named (hnames n hn)

/-- What is joined to an absolute path is absolute. -/
theorem isAbsolute_join {dir : Path} (h : dir.isAbsolute = true) (p : Path) :
    (dir / p).isAbsolute = true := by
  show (join dir p).isAbsolute = true
  obtain ⟨bytes⟩ := dir
  cases bytes with
  | nil => cases h
  | cons b bs =>
    unfold join
    split
    · assumption
    · split <;> simpa [isAbsolute] using h

/-- An absolute path is not empty. -/
theorem bytes_ne_nil_of_isAbsolute {p : Path} (h : p.isAbsolute = true) :
    ¬ p.bytes.isEmpty = true := by
  intro hempty
  rw [isAbsolute, List.isEmpty_iff.1 hempty] at h
  cases h

/-- An absolute path is the same in every directory. -/
theorem join_of_isAbsolute (dir : Path) {p : Path} (h : p.isAbsolute = true) : dir / p = p := by
  show join dir p = p
  rw [join, if_pos h]

/-- What a directory puts before the bytes of a path in it: its own bytes, and a slash where one is
missing. -/
def lead (dir : Path) : List UInt8 :=
  if dir.bytes.isEmpty || dir.bytes.getLast? == some slash then dir.bytes else dir.bytes ++ [slash]

/-- A relative path is put after what leads to it. -/
theorem join_of_not_isAbsolute (dir : Path) {p : Path} (h : p.isAbsolute = false) :
    dir / p = ⟨dir.lead ++ p.bytes⟩ := by
  show join dir p = _
  rw [join, h, if_neg Bool.false_ne_true, lead]
  split <;> simp

/-- A path that is empty or ends in a slash leads to what is below it as it is. -/
theorem lead_of_closed {dir : Path} (h : dir.bytes = [] ∨ dir.bytes.getLast? = some slash) :
    dir.lead = dir.bytes := by
  rw [lead, if_pos (by simpa using h)]

/-- Any other path leads to what is below it by a slash more. -/
theorem lead_of_not_closed {dir : Path} (h : ¬ (dir.bytes = [] ∨ dir.bytes.getLast? = some slash)) :
    dir.lead = dir.bytes ++ [slash] := by
  rw [lead, if_neg (by simpa using h)]

/-- What leads to something below is empty or ends in a slash. -/
theorem lead_eq_nil_or_getLast? (dir : Path) : dir.lead = [] ∨ dir.lead.getLast? = some slash := by
  by_cases h : dir.bytes = [] ∨ dir.bytes.getLast? = some slash
  · rwa [lead_of_closed h]
  · rw [lead_of_not_closed h]
    exact .inr List.getLast?_concat

/-- What leads below two paths joined is what leads below each. -/
theorem lead_join (dir : Path) {p : Path} (h : p.isAbsolute = false) :
    (dir / p).lead = dir.lead ++ p.lead := by
  rw [join_of_not_isAbsolute dir h]
  by_cases hp : p.bytes = []
  · -- What a directory puts before a path needs no further slash.
    have hself : (⟨dir.lead⟩ : Path).lead = dir.lead := lead_of_closed (lead_eq_nil_or_getLast? dir)
    rw [lead_of_closed (.inl hp), hp, List.append_nil, hself]
  · have hlast : (dir.lead ++ p.bytes).getLast? = p.bytes.getLast? :=
      List.getLast?_append_of_ne_nil _ hp
    by_cases hslash : p.bytes.getLast? = some slash
    · have hjoined : (⟨dir.lead ++ p.bytes⟩ : Path).lead = dir.lead ++ p.bytes :=
        lead_of_closed (.inr (hlast.trans hslash))
      rw [lead_of_closed (.inr hslash), hjoined]
    · have hjoined : (⟨dir.lead ++ p.bytes⟩ : Path).lead = dir.lead ++ p.bytes ++ [slash] :=
        lead_of_not_closed (by simp [hp, hlast, hslash])
      have hp' : p.lead = p.bytes ++ [slash] := lead_of_not_closed (by simp [hp, hslash])
      rw [hp', hjoined, List.append_assoc]

/-- Relative paths joined are relative. -/
theorem isAbsolute_join_of_not {dir p : Path} (hdir : dir.isAbsolute = false)
    (hp : p.isAbsolute = false) : (dir / p).isAbsolute = false := by
  rw [join_of_not_isAbsolute dir hp]
  obtain ⟨bytes⟩ := dir
  cases bytes with
  | nil => simpa [lead, isAbsolute] using hp
  | cons b bs =>
    have hb : b ≠ slash := by simpa [isAbsolute] using hdir
    unfold lead
    split <;> simpa [isAbsolute] using hb

/-- A path in a directory in a directory may be read in either order. -/
theorem join_assoc (a b c : Path) : a / (b / c) = a / b / c := by
  cases hc : c.isAbsolute with
  | true => rw [join_of_isAbsolute b hc, join_of_isAbsolute a hc, join_of_isAbsolute (a / b) hc]
  | false =>
    cases hb : b.isAbsolute with
    | true => rw [join_of_isAbsolute a hb, join_of_isAbsolute a (isAbsolute_join hb c)]
    | false =>
      rw [join_of_not_isAbsolute a (isAbsolute_join_of_not hb hc), join_of_not_isAbsolute b hc,
        join_of_not_isAbsolute (a / b) hc, lead_join a hb, List.append_assoc]

/-- The components of a path in an absolute directory: those of the directory, and then its own. -/
theorem components_join_of_not_isAbsolute {dir p : Path} (habs : dir.isAbsolute = true)
    (hp : p.isAbsolute = false) :
    (dir / p).components = dir.components ++ p.segments.filterMap component? := by
  obtain ⟨front, hdir, hjoin⟩ := exists_segments_join dir
  rw [components, components, if_pos habs, if_pos (isAbsolute_join habs _), hjoin p hp,
    List.filterMap_append, filterMap_component?_of_segments hdir, List.append_assoc]

/-- Joining proper names to an absolute path adds them to its components. -/
theorem components_join {dir : Path} (habs : dir.isAbsolute = true) {names : List FileName}
    (hne : names ≠ []) (hnames : ∀ n ∈ names, isProperName n = true) :
    (dir / pathOfNames names).components = dir.components ++ names.map .named := by
  rw [components_join_of_not_isAbsolute habs (isAbsolute_pathOfNames hne hnames),
    segments_pathOfNames hne hnames, filterMap_component?_names hnames]

end Path

namespace Machine

variable {m : Machine} {p : Path} (h : p.isAbsolute = true)

include h

/-- An absolute path stays as it is on every machine. -/
theorem absolute_of_isAbsolute : m.absolute p = p := Path.join_of_isAbsolute _ h

/-- An absolute path does not depend on the directory that a machine works in. -/
theorem resolve?_of_isAbsolute : m.resolve? p = m.files.resolve? p := by
  rw [resolve?, if_neg (Path.bytes_ne_nil_of_isAbsolute h), absolute_of_isAbsolute h]

/-- An absolute path is read without regard to the working directory. -/
theorem readText?_of_isAbsolute : m.readText? p = m.files.readText? p := by
  rw [readText?, if_neg (Path.bytes_ne_nil_of_isAbsolute h), absolute_of_isAbsolute h]

end Machine

namespace FileTree

section

variable {root : FileTree} {dir : Path} {base : List FileName}
  (hbase : root.locate? dir = some base)

include hbase

/-- What comes before a slash at the end of a path leads to the same place. -/
theorem follow_of_segments {front : List FileName}
    (hdir : dir.segments = front ∨ dir.segments = front ++ [[]]) :
    root.follow maxLinks [] front = some base := by
  rw [locate?] at hbase
  rcases hdir with hdir | hdir
  · rwa [hdir] at hbase
  · rw [hdir] at hbase
    exact follow_of_append_idle rfl hbase

/-- A path in a directory goes on from where the directory is, through the links that are left. -/
theorem exists_follow_join : ∃ left ≤ maxLinks, ∀ p : Path, p.isAbsolute = false →
    (∀ more,
      root.follow (maxLinks + more) [] (dir / p).segments =
        root.follow (left + more) base p.segments) ∧
      ∀ place, root.Asks left base p.segments place →
        root.Asks maxLinks [] (dir / p).segments place := by
  obtain ⟨front, hdir, hjoin⟩ := Path.exists_segments_join dir
  obtain ⟨left, hleft, hfollow, hasks⟩ := exists_follow_append (follow_of_segments hbase hdir)
  refine ⟨left, hleft, fun p hp => ?_⟩
  rw [hjoin p hp]
  exact ⟨fun more => hfollow more p.segments, hasks p.segments⟩

/-- A path that leads to a file leads nowhere with a slash after it. -/
theorem locate?_join_nil {content : List UInt8} (hfile : root.at? base = some (file content)) :
    root.locate? (dir / pathOfNames []) = none := by
  obtain ⟨left, -, hjoin⟩ := exists_follow_join hbase
  have hfollow := (hjoin (pathOfNames []) rfl).1 0
  refine hfollow.trans (follow_cons_of_not_directory fun ms hms => ?_)
  cases hfile.symm.trans hms

variable {names : List FileName} (hne : names ≠ []) (hnames : ∀ n ∈ names, isProperName n = true)

include hne hnames

/-- The path of a place below a directory goes on from where the directory is. -/
theorem exists_locate?_join : ∃ left ≤ maxLinks,
    root.locate? (dir / pathOfNames names) = root.follow left base names := by
  obtain ⟨left, hleft, hjoin⟩ := exists_follow_join hbase
  have hfollow := (hjoin _ (isAbsolute_pathOfNames hne hnames)).1 0
  rw [segments_pathOfNames hne hnames] at hfollow
  exact ⟨left, hleft, hfollow⟩

variable {t : FileTree} (ht : root.at? (base ++ names) = some t)

include ht

/-- The path of a place below a directory leads there, unless there is a link. -/
theorem locate?_join (hlink : ∀ target, t ≠ link target) :
    root.locate? (dir / pathOfNames names) = some (base ++ names) := by
  obtain ⟨left, -, hlocate⟩ := exists_locate?_join hbase hne hnames
  rw [hlocate, follow_names hnames ht hlink]

/-- The path of a place below a directory asks for the place. -/
theorem asks_join : root.Asks maxLinks [] (dir / pathOfNames names).segments (base ++ names) := by
  obtain ⟨left, -, hjoin⟩ := exists_follow_join hbase
  have hasks := (hjoin _ (isAbsolute_pathOfNames hne hnames)).2
  rw [segments_pathOfNames hne hnames] at hasks
  exact hasks _ (asks_names hne hnames ht)

/-- If there is a link, the path leads to a place that is linked, or nowhere. -/
theorem eq_or_isLinked_of_locate?_join {place : List FileName}
    (h : root.locate? (dir / pathOfNames names) = some place) :
    place = base ++ names ∨ root.IsLinked place := by
  -- Only a link at the end leads elsewhere.
  by_cases hlink : ∃ target, t = link target
  · obtain ⟨target, rfl⟩ := hlink
    obtain ⟨ns, n, rfl⟩ : ∃ ns n, names = ns ++ [n] := by
      rcases List.eq_nil_or_concat names with rfl | ⟨ns, n, rfl⟩
      · exact absurd rfl hne
      · exact ⟨ns, n, List.concat_eq_append⟩
    rw [← List.append_assoc] at ht
    obtain ⟨ms, hms⟩ := exists_directory_of_at? ht
    have hns : ∀ k ∈ ns, isProperName k = true := fun k hk => hnames k (List.mem_append_left [n] hk)
    obtain ⟨left, hleft, hlocate⟩ := exists_locate?_join hbase hne hnames
    rw [hlocate, follow_names_append hns hms] at h
    exact .inr ⟨base ++ ns, n, target, ht, follow_mono hleft h⟩
  · rw [not_exists] at hlink
    rw [locate?_join hbase hne hnames ht hlink] at h
    exact .inl (Option.some.inj h).symm

end

end FileTree

end ImportLint
