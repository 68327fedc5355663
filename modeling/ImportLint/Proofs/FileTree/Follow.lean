import ImportLint.FileTree.Resolve
import ImportLint.Proofs.FileTree.Places

/-!
# Following a path

A path that leads to a place leads on from there by the names of the places below, unless it meets a
link. Slashes at the end of a path to a directory do not matter.
-/

namespace ImportLint.FileTree

variable {root : FileTree} {links : Nat} {here : List FileName}

/-- A path without segments leads to where it starts, if there is something. -/
theorem follow_nil :
    root.follow links here [] = if (root.at? here).isSome then some here else none := by
  rw [follow]

/-- A path that goes on must have led to a directory. -/
theorem follow_cons_of_not_directory {s : FileName} {rest : List FileName}
    (h : ∀ ms, root.at? here ≠ some (directory ms)) :
    root.follow links here (s :: rest) = none := by
  rw [follow]
  split
  · next ms hms => exact absurd hms (h ms)
  · rfl

section

variable {ms : List (FileName × FileTree)} (hhere : root.at? here = some (directory ms))
  {s : FileName} {rest : List FileName}

include hhere

/-- An idle segment leads nowhere else. -/
theorem follow_cons_idle (hidle : Path.isIdle s = true) :
    root.follow links here (s :: rest) = root.follow links here rest := by
  rw [follow, hhere]
  simp only [hidle, if_true]

variable (hidle : ¬ Path.isIdle s = true)

include hidle

/-- Two dots lead to the directory above. -/
theorem follow_cons_above (habove : (s == above) = true) :
    root.follow links here (s :: rest) = root.follow links here.dropLast rest := by
  rw [follow, hhere]
  simp only [if_neg hidle, if_pos habove]

variable (habove : ¬ (s == above) = true)

include habove

/-- A name that is missing leads nowhere. -/
theorem follow_cons_missing (hfind : find? s ms = none) :
    root.follow links here (s :: rest) = none := by
  rw [follow, hhere]
  simp only [if_neg hidle, if_neg habove, hfind]

/-- Nothing leads through more links than a path may. -/
theorem follow_cons_last_link {target : Path} (hfind : find? s ms = some (link target)) :
    root.follow 0 here (s :: rest) = none := by
  rw [follow, hhere]
  simp only [if_neg hidle, if_neg habove, hfind]

/-- A name of a link is replaced by the target of the link. -/
theorem follow_cons_link {target : Path} (hfind : find? s ms = some (link target)) :
    root.follow (links + 1) here (s :: rest) =
      root.follow links (if target.isAbsolute then [] else here) (target.segments ++ rest) := by
  rw [follow, hhere]
  simp only [if_neg hidle, if_neg habove, hfind]

/-- A name of a member that is no link leads to the member. -/
theorem follow_cons_member {t : FileTree} (hfind : find? s ms = some t)
    (hlink : ∀ target, t ≠ link target) :
    root.follow links here (s :: rest) = root.follow links (here ++ [s]) rest := by
  rw [follow, hhere]
  simp only [if_neg hidle, if_neg habove]
  cases t with
  | link target => exact absurd rfl (hlink target)
  | _ => rw [hfind]

end

/-- Proper names are not idle. -/
theorem not_isIdle_of_isProperName {n : FileName} (h : isProperName n = true) :
    ¬ Path.isIdle n = true := by
  obtain ⟨hempty, -, hdot, -⟩ := isProperName_iff.1 h
  simp [Path.isIdle, hempty, hdot]

/-- Proper names do not lead up. -/
theorem ne_above_of_isProperName {n : FileName} (h : isProperName n = true) :
    ¬ (n == above) = true := by
  obtain ⟨-, -, -, hdots⟩ := isProperName_iff.1 h
  simpa [above] using hdots

/-- From a place, the names on the way to a place below lead past a directory on the way. -/
theorem follow_names_append {names rest : List FileName}
    (hnames : ∀ n ∈ names, isProperName n = true) {ms : List (FileName × FileTree)}
    (hms : root.at? (here ++ names) = some (directory ms)) :
    root.follow links here (names ++ rest) = root.follow links (here ++ names) rest := by
  induction names generalizing here with
  | nil => rw [List.nil_append, List.append_nil]
  | cons n ns ih =>
    rw [List.forall_mem_cons] at hnames
    obtain ⟨ks, hks⟩ := exists_directory_of_at? hms
    rw [at?_append, hks, Option.bind_some, at?_cons_directory, Option.bind_eq_some_iff] at hms
    obtain ⟨u, hu, hat⟩ := hms
    -- What has a directory at it or below it is none but a directory.
    have hu' : ∀ target, u ≠ link target := by
      rintro target rfl
      cases ns <;> cases hat
    have hnext : root.at? (here ++ [n] ++ ns) = some (directory ms) := by
      rw [List.append_assoc, at?_append, hks, Option.bind_some, List.singleton_append,
        at?_cons_directory, hu, Option.bind_some, hat]
    rw [List.cons_append, follow_cons_member hks (not_isIdle_of_isProperName hnames.1)
      (ne_above_of_isProperName hnames.1) hu hu', ih hnames.2 hnext, List.append_assoc,
      List.singleton_append]

/-- From a place, names lead to the place below that they are the way to. -/
theorem follow_names {names : List FileName} (hnames : ∀ n ∈ names, isProperName n = true)
    {t : FileTree} (ht : root.at? (here ++ names) = some t) (hlink : ∀ target, t ≠ link target) :
    root.follow links here names = some (here ++ names) := by
  rcases List.eq_nil_or_concat names with rfl | ⟨ns, n, rfl⟩
  · rw [List.append_nil] at ht ⊢
    rw [follow_nil, ht]
    rfl
  · rw [List.concat_eq_append] at hnames ht ⊢
    rw [List.forall_mem_append, List.forall_mem_singleton] at hnames
    obtain ⟨hns, hn⟩ := hnames
    rw [← List.append_assoc] at ht
    obtain ⟨ms, hms⟩ := exists_directory_of_at? ht
    have hfind : find? n ms = some t := by
      rw [at?_append, hms, Option.bind_some, at?_cons_directory, Option.bind_eq_some_iff] at ht
      obtain ⟨u, hu, hut⟩ := ht
      rwa [at?_nil, ← hu] at hut
    rw [follow_names_append hns hms, follow_cons_member hms (not_isIdle_of_isProperName hn)
      (ne_above_of_isProperName hn) hfind hlink, follow_nil, ht, List.append_assoc]
    rfl

/-- A path **asks for** a place if, while it is followed, a name in it is looked up there. -/
inductive Asks (root : FileTree) : Nat → List FileName → List (List UInt8) → List FileName → Prop
  | name {links : Nat} {here : List FileName} {s : FileName} {rest : List FileName}
      {ms : List (FileName × FileTree)} (hhere : root.at? here = some (directory ms))
      (hidle : ¬ Path.isIdle s = true) (habove : ¬ (s == above) = true) :
    Asks root links here (s :: rest) (here ++ [s])
  | idle {links : Nat} {here : List FileName} {s : FileName} {rest place : List FileName}
      {ms : List (FileName × FileTree)} (hhere : root.at? here = some (directory ms))
      (hidle : Path.isIdle s = true) (hrest : Asks root links here rest place) :
    Asks root links here (s :: rest) place
  | above {links : Nat} {here : List FileName} {s : FileName} {rest place : List FileName}
      {ms : List (FileName × FileTree)} (hhere : root.at? here = some (directory ms))
      (hidle : ¬ Path.isIdle s = true) (habove : (s == above) = true)
      (hrest : Asks root links here.dropLast rest place) : Asks root links here (s :: rest) place
  | link {links : Nat} {here : List FileName} {s : FileName} {rest place : List FileName}
      {ms : List (FileName × FileTree)} {target : Path}
      (hhere : root.at? here = some (directory ms))
      (hidle : ¬ Path.isIdle s = true) (habove : ¬ (s == above) = true)
      (hfind : find? s ms = some (link target))
      (hrest :
        Asks root links (if target.isAbsolute then [] else here) (target.segments ++ rest) place) :
    Asks root (links + 1) here (s :: rest) place
  | member {links : Nat} {here : List FileName} {s : FileName} {rest place : List FileName}
      {ms : List (FileName × FileTree)} {t : FileTree} (hhere : root.at? here = some (directory ms))
      (hidle : ¬ Path.isIdle s = true) (habove : ¬ (s == above) = true)
      (hfind : find? s ms = some t)
      (hlink : ∀ target, t ≠ link target) (hrest : Asks root links (here ++ [s]) rest place) :
    Asks root links here (s :: rest) place

/-- Where a path leads somewhere, what comes after it is followed from there, through the links that
are left, be it that more are allowed; and what it asks for from there is asked for by the whole
path. -/
theorem exists_follow_append {segments base : List FileName}
    (h : root.follow links here segments = some base) : ∃ left ≤ links,
      (∀ more rest,
        root.follow (links + more) here (segments ++ rest) = root.follow (left + more) base rest) ∧
      ∀ rest place, root.Asks left base rest place →
        root.Asks links here (segments ++ rest) place := by
  -- One case for each step: the end of the path, an idle piece, the parent, a name that is missing,
  -- one link too many, a link, any other member, and a place that is no directory.
  fun_induction follow root links here segments with
  | case1 links here hsome =>
    obtain rfl := Option.some.inj h
    exact ⟨links, Nat.le_refl links, fun _ _ => rfl, fun _ _ hplace => hplace⟩
  | case2 links here hnone => cases h
  | case3 links here s rest ms hms hidle ih =>
    obtain ⟨left, hleft, hfollow, hasks⟩ := ih h
    refine ⟨left, hleft, ?_, fun rest place hplace => .idle hms hidle (hasks rest place hplace)⟩
    intro more rest
    rw [List.cons_append, follow_cons_idle hms hidle, hfollow]
  | case4 links here s rest ms hms hidle habove ih =>
    obtain ⟨left, hleft, hfollow, hasks⟩ := ih h
    refine ⟨left, hleft, ?_,
      fun rest place hplace => .above hms hidle habove (hasks rest place hplace)⟩
    intro more rest
    rw [List.cons_append, follow_cons_above hms hidle habove, hfollow]
  | case5 => cases h
  | case6 => cases h
  | case7 here s rest ms hms hidle habove target hfind n ih =>
    obtain ⟨left, hleft, hfollow, hasks⟩ := ih h
    refine ⟨left, Nat.le_succ_of_le hleft, ?_, ?_⟩
    · intro more rest
      have hlinks : n.succ + more = (n + more) + 1 := Nat.succ_add n more
      rw [List.cons_append, hlinks, follow_cons_link hms hidle habove hfind, ← List.append_assoc]
      exact hfollow more rest
    · intro rest place hplace
      have hrest := hasks rest place hplace
      rw [List.append_assoc] at hrest
      exact .link hms hidle habove hfind hrest
  | case8 links here s rest ms hms hidle habove u hlink' hfind ih =>
    obtain ⟨left, hleft, hfollow, hasks⟩ := ih h
    refine ⟨left, hleft, ?_, ?_⟩
    · intro more rest
      rw [List.cons_append, follow_cons_member hms hidle habove hfind hlink', hfollow]
    · intro rest place hplace
      exact .member hms hidle habove hfind hlink' (hasks rest place hplace)
  | case9 => cases h

/-- Names below a place are asked for if there is something. -/
theorem asks_names {names : List FileName} (hne : names ≠ [])
    (hnames : ∀ n ∈ names, isProperName n = true) {u : FileTree}
    (hu : root.at? (here ++ names) = some u) : root.Asks links here names (here ++ names) := by
  induction names generalizing here with
  | nil => exact absurd rfl hne
  | cons n ns ih =>
    rw [List.forall_mem_cons] at hnames
    obtain ⟨ms, hms⟩ := exists_directory_of_at? hu
    have hidle := not_isIdle_of_isProperName hnames.1
    have habove := ne_above_of_isProperName hnames.1
    cases ns with
    | nil => exact .name hms hidle habove
    | cons k ks =>
      have hsplit : here ++ n :: k :: ks = here ++ [n] ++ k :: ks := by simp
      rw [hsplit] at hu ⊢
      -- What has something below it is a directory, and no link.
      obtain ⟨ks', hks'⟩ := exists_directory_of_at? hu
      have hfind : find? n ms = some (directory ks') := by
        rw [at?_append, hms, Option.bind_some, at?_cons_directory, Option.bind_eq_some_iff] at hks'
        obtain ⟨v, hv, hv'⟩ := hks'
        rwa [at?_nil, ← hv] at hv'
      exact .member hms hidle habove hfind (by simp) (ih (List.cons_ne_nil k ks) hnames.2 hu)

/-- A path that leads somewhere does so where more links are allowed. -/
theorem follow_mono {segments base : List FileName} {more : Nat} (hmore : links ≤ more)
    (h : root.follow links here segments = some base) :
    root.follow more here segments = some base := by
  -- One case for each step. Only the one through a link counts down.
  fun_induction follow root links here segments generalizing more with
  | case1 links here hsome => rwa [follow_nil, if_pos hsome]
  | case2 => cases h
  | case3 links here s rest ms hms hidle ih =>
    rw [follow_cons_idle hms hidle]
    exact ih hmore h
  | case4 links here s rest ms hms hidle habove ih =>
    rw [follow_cons_above hms hidle habove]
    exact ih hmore h
  | case5 => cases h
  | case6 => cases h
  | case7 here s rest ms hms hidle habove target hfind n ih =>
    obtain ⟨k, rfl⟩ : ∃ k, more = k + 1 := Nat.exists_eq_add_one_of_ne_zero (by omega)
    rw [follow_cons_link hms hidle habove hfind]
    exact ih (by omega) h
  | case8 links here s rest ms hms hidle habove u hlink hfind ih =>
    rw [follow_cons_member hms hidle habove hfind hlink]
    exact ih hmore h
  | case9 => cases h

/-- What a path leads to is where it starts, or a place that it asks for, or else a directory. -/
theorem eq_or_asks_or_directory_of_follow {segments base : List FileName}
    (h : root.follow links here segments = some base) :
    base = here ∨ root.Asks links here segments base ∨ ∃ ms,
      root.at? base = some (directory ms) := by
  -- Where a name is read there is a directory, and so there is above it and at the top.
  fun_induction follow root links here segments with
  | case1 links here hsome => exact .inl (Option.some.inj h).symm
  | case2 => cases h
  | case3 links here s rest ms hms hidle ih =>
    rcases ih h with hhere | hasks | hdirectory
    · exact .inl hhere
    · exact .inr (.inl (.idle hms hidle hasks))
    · exact .inr (.inr hdirectory)
  | case4 links here s rest ms hms hidle habove ih =>
    rcases ih h with rfl | hasks | hdirectory
    · exact .inr (.inr (exists_directory_on_way (List.dropLast_prefix here) hms))
    · exact .inr (.inl (.above hms hidle habove hasks))
    · exact .inr (.inr hdirectory)
  | case5 => cases h
  | case6 => cases h
  | case7 here s rest ms hms hidle habove target hfind n ih =>
    rcases ih h with heq | hasks | hdirectory
    · right
      right
      rw [heq]
      split
      · exact exists_directory_on_way (List.nil_prefix) hms
      · exact ⟨ms, hms⟩
    · exact .inr (.inl (.link hms hidle habove hfind hasks))
    · exact .inr (.inr hdirectory)
  | case8 links here s rest ms hms hidle habove u hlink hfind ih =>
    rcases ih h with rfl | hasks | hdirectory
    · exact .inr (.inl (.name hms hidle habove))
    · exact .inr (.inl (.member hms hidle habove hfind hlink hasks))
    · exact .inr (.inr hdirectory)
  | case9 => cases h

/-! ## Trees without links -/

/-- A tree that **has no links** has a link at no place. -/
def HasNoLinks (root : FileTree) : Prop := ∀ place target, root.at? place ≠ some (link target)

/-- A file has no links. -/
theorem hasNoLinks_file (content : List UInt8) : (file content).HasNoLinks := by
  rintro (_ | ⟨n, ns⟩) target h <;> cases h

/-- An empty directory has no links. -/
theorem hasNoLinks_nil : (directory []).HasNoLinks := by
  rintro (_ | ⟨n, ns⟩) target h <;> cases h

/-- A directory has no links if its first member has none and the others have none. -/
theorem HasNoLinks.cons {n : FileName} {t : FileTree}
    {ms : List (FileName × FileTree)} (ht : t.HasNoLinks) (hms : (directory ms).HasNoLinks) :
    (directory ((n, t) :: ms)).HasNoLinks := by
  rintro (_ | ⟨k, ns⟩) target h
  · cases h
  · rw [at?_cons_cons] at h
    split at h
    · exact ht ns target h
    · exact hms (k :: ns) target h

/-- Without links, no member of a directory is one. -/
theorem HasNoLinks.find?_ne (hroot : root.HasNoLinks) {ms : List (FileName × FileTree)}
    (hms : root.at? here = some (directory ms)) (s : FileName) (target : Path) :
    find? s ms ≠ some (link target) := by
  intro hfind
  apply hroot (here ++ [s]) target
  rw [at?_append, hms, Option.bind_some, at?_cons_directory, hfind, Option.bind_some, at?_nil]

/-- Without links, a path asks only for places that have a name of the path. -/
theorem HasNoLinks.mem_of_asks (hroot : root.HasNoLinks) {segments place : List FileName}
    (h : root.Asks links here segments place) {n : FileName} (hn : place.getLast? = some n) :
    n ∈ segments := by
  induction h with
  | name =>
    rw [List.getLast?_concat] at hn
    exact Option.some.inj hn ▸ List.mem_cons_self
  | idle _ _ _ ih | above _ _ _ _ ih | member _ _ _ _ _ _ ih => exact List.mem_cons_of_mem _ (ih hn)
  | link hhere _ _ hfind => exact absurd hfind (hroot.find?_ne hhere _ _)

/-- Without links, it does not matter how many are allowed. -/
theorem HasNoLinks.follow_eq (hroot : root.HasNoLinks) (segments : List FileName) (more : Nat) :
    root.follow links here segments = root.follow more here segments := by
  fun_induction follow root links here segments with
  | case1 links here hsome => rw [follow_nil, if_pos hsome]
  | case2 links here hnone => rw [follow_nil, if_neg hnone]
  | case3 links here s rest ms hms hidle ih => rw [follow_cons_idle hms hidle, ih]
  | case4 links here s rest ms hms hidle habove ih => rw [follow_cons_above hms hidle habove, ih]
  | case5 links here s rest ms hms hidle habove hfind =>
    rw [follow_cons_missing hms hidle habove hfind]
  | case6 here s rest ms hms hidle habove target hfind =>
    exact absurd hfind (hroot.find?_ne hms _ _)
  | case7 here s rest ms hms hidle habove target hfind n ih =>
    exact absurd hfind (hroot.find?_ne hms _ _)
  | case8 links here s rest ms hms hidle habove u hlink hfind ih =>
    rw [follow_cons_member hms hidle habove hfind hlink, ih]
  | case9 links here s rest hnot => rw [follow_cons_of_not_directory fun ms hms => hnot ms hms]

/-- A place that is **linked**: a link in some directory leads there. -/
def IsLinked (root : FileTree) (place : List FileName) : Prop :=
  ∃ here n target, root.at? (here ++ [n]) = some (link target) ∧
    root.follow maxLinks here [n] = some place

/-- A piece at the end that says nothing does not matter where the path leads to something. -/
theorem follow_of_append_idle {segments base : List FileName} {s : FileName}
    (hidle : Path.isIdle s = true) (h : root.follow links here (segments ++ [s]) = some base) :
    root.follow links here segments = some base := by
  fun_induction follow root links here segments with
  | case1 links here hsome =>
    -- The piece itself is read here, and a directory must be there for it.
    obtain ⟨t, ht⟩ := Option.isSome_iff_exists.1 hsome
    rw [List.nil_append] at h
    cases t with
    | directory ms => rwa [follow_cons_idle ht hidle, follow_nil, if_pos hsome] at h
    | _ =>
      rw [follow_cons_of_not_directory (by simp [ht])] at h
      cases h
  | case2 links here hnone =>
    have hdirectory : ∀ ms, root.at? here ≠ some (directory ms) := by
      intro ms hms
      rw [hms] at hnone
      exact hnone rfl
    rw [List.nil_append, follow_cons_of_not_directory hdirectory] at h
    cases h
  | case3 links here _ rest ms hms hidle' ih =>
    rw [List.cons_append, follow_cons_idle hms hidle'] at h
    exact ih h
  | case4 links here _ rest ms hms hidle' habove ih =>
    rw [List.cons_append, follow_cons_above hms hidle' habove] at h
    exact ih h
  | case5 links here k rest ms hms hidle' habove hfind =>
    rw [List.cons_append, follow_cons_missing hms hidle' habove hfind] at h
    cases h
  | case6 here k rest ms hms hidle' habove target hfind =>
    rw [List.cons_append, follow_cons_last_link hms hidle' habove hfind] at h
    cases h
  | case7 here k rest ms hms hidle' habove target hfind n ih =>
    rw [List.cons_append, follow_cons_link hms hidle' habove hfind, ← List.append_assoc] at h
    exact ih h
  | case8 links here k rest ms hms hidle' habove u hlink hfind ih =>
    rw [List.cons_append, follow_cons_member hms hidle' habove hfind hlink] at h
    exact ih h
  | case9 links here k rest hnot =>
    rw [List.cons_append, follow_cons_of_not_directory fun ms hms => hnot ms hms] at h
    cases h

/-- What a path leads to is there. -/
theorem isSome_at?_of_follow {segments base : List FileName}
    (h : root.follow links here segments = some base) : (root.at? base).isSome = true := by
  fun_induction follow root links here segments with
  | case1 links here hsome =>
    obtain rfl : here = base := by simpa using h
    exact hsome
  | case2 => cases h
  | case3 links here s rest ms hms hidle ih => exact ih h
  | case4 links here s rest ms hms hidle habove ih => exact ih h
  | case5 => cases h
  | case6 => cases h
  | case7 here s rest ms hms hidle habove target hfind n ih => exact ih h
  | case8 links here s rest ms hms hidle habove u hlink hfind ih => exact ih h
  | case9 => cases h

end ImportLint.FileTree
