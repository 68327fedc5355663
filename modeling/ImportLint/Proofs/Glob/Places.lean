import ImportLint.Proofs.Text.Ascii
import ImportLint.Proofs.Traverse

/-!
# Groups by their places

The groups of a pattern can be written out on its bytes: find the places of the first group's braces
and commas, cut the text there, put the slices together and start over. Everything that could go
wrong with that is a **fault** here: a slice that is reversed or ends beyond the text, one that cuts
a character in two, a class whose end is looked for from beyond the text, a group that ends before
it was opened. Looking for a place goes forward, and writing out a group makes the text shorter,
whatever the bytes are.
-/

namespace ImportLint.Glob

open Utf8

/-- What can go wrong with places. -/
inductive PlaceFault where
  /-- A slice that ends before it starts, or beyond the text. -/
  | range
  /-- A slice that starts or ends within a character. -/
  | character
  /-- A class whose end is looked for from beyond the text. -/
  | beyond
  /-- A group that ends before it was opened. -/
  | depth
  deriving DecidableEq, Repr

/-! ## Slices -/

/-- Whether a place is the end of a text or holds a byte that starts a character. -/
def isBoundary (s : List UInt8) (i : Nat) : Bool :=
  match s[i]? with
  | some b => b.toNat < 0x80 || 0xC0 ≤ b.toNat
  | none => i == s.length

/-- The bytes of a text from one place to another. -/
def slice (s : List UInt8) (i j : Nat) : Except PlaceFault (List UInt8) :=
  if i ≤ j ∧ j ≤ s.length then
    if isBoundary s i && isBoundary s j then .ok ((s.take j).drop i) else .error .character
  else .error .range

/-! ## Places of groups -/

/-- The place after a character, if it stands at a place. -/
def skipChar (s : List UInt8) (c : Char) (i : Nat) : Nat :=
  if s[i]? = some (ascii c) then i + 1 else i

/-- The place after the bracket at a place and the marks that may follow it: an exclamation mark,
and a closing bracket, which is a member there. -/
def classStart (s : List UInt8) (i : Nat) : Nat := skipChar s ']' (skipChar s '!' (i + 1))

/-- The place after the class that the bracket at a place opens, or after the bracket if there is
none. -/
def skipClass (s : List UInt8) (i : Nat) : Except PlaceFault Nat :=
  if classStart s i ≤ s.length then
    match (s.drop (classStart s i)).findIdx? (· == ascii ']') with
    | some k => .ok (classStart s i + k + 1)
    | none => .ok (i + 1)
  else .error .beyond

/-- Skipping a class goes on by at least one place. -/
theorem lt_of_skipClass {s : List UInt8} {i j : Nat} (h : skipClass s i = .ok j) : i < j := by
  have hskip (c : Char) (k : Nat) : k ≤ skipChar s c k := by
    unfold skipChar
    split <;> omega
  have hstart : i < classStart s i := Nat.le_trans (hskip '!' (i + 1)) (hskip ']' _)
  unfold skipClass at h
  split at h
  · split at h
    · cases h
      omega
    · cases h
      exact Nat.lt_succ_self i
  · cases h

section

variable {σ ρ : Type} (visit : σ → Nat → UInt8 → Except PlaceFault (σ ⊕ ρ)) (s : List UInt8)

/-- Look at the bytes outside classes from a place on, until there is an answer. -/
def search (st : σ) (i : Nat) : Except PlaceFault (Option ρ) :=
  match _hi : s[i]? with
  | none => .ok none
  | some b =>
    if b = ascii '[' then
      match _hj : skipClass s i with
      | .ok j => search st j
      | .error fault => .error fault
    else
      match visit st i b with
      | .ok (.inl st) => search st (i + 1)
      | .ok (.inr answer) => .ok (some answer)
      | .error fault => .error fault
termination_by s.length - i
decreasing_by
  · have hlt := lt_of_skipClass _hj
    obtain ⟨hi, -⟩ := List.getElem?_eq_some_iff.1 _hi
    omega
  · obtain ⟨hi, -⟩ := List.getElem?_eq_some_iff.1 _hi
    omega

end

section

variable {σ ρ : Type} {visit : σ → Nat → UInt8 → Except PlaceFault (σ ⊕ ρ)} {s : List UInt8}
  {st st' : σ} {i j : Nat}
  {b : UInt8}

/-- Nothing is found behind the end of a text. -/
theorem search_of_none (h : s[i]? = none) : search visit s st i = .ok none := by
  rw [search]
  split <;> simp_all

/-- A search goes on after the class that a bracket opens. -/
theorem search_of_skipClass (h : s[i]? = some (ascii '[')) (hj : skipClass s i = .ok j) :
    search visit s st i = search visit s st j := by
  rw [search]
  split
  · simp_all
  · next b hb =>
    obtain rfl := Option.some.inj (h.symm.trans hb)
    rw [if_pos rfl]
    split
    · next j' hj' =>
      obtain rfl := Except.ok.inj (hj.symm.trans hj')
      rfl
    · next hj' => cases hj.symm.trans hj'

/-- A byte other than a bracket is visited, and the search goes on after it unless that is the
answer. -/
theorem search_of_visit (h : s[i]? = some b) (hb : b ≠ ascii '[') : search visit s st i =
    match visit st i b with
    | .ok (.inl st) => search visit s st (i + 1)
    | .ok (.inr answer) => .ok (some answer)
    | .error fault => .error fault := by
  rw [search]
  split
  · simp_all
  · next b' hb' =>
    obtain rfl := Option.some.inj (h.symm.trans hb')
    rw [if_neg hb]

end

/-- Look for the end of a group: its depth, and the places of its commas so far. -/
def visitGroup : Nat × List Nat → Nat → UInt8 →
    Except PlaceFault ((Nat × List Nat) ⊕ (List Nat × Nat))
  | (depth, commas), i, b =>
    if b = ascii '\x7b' then .ok (.inl (depth + 1, commas))
    else if b = ascii '\x7d' then
      match depth with
      | 0 => .error .depth
      | 1 => .ok (.inr (commas, i))
      | depth + 2 => .ok (.inl (depth + 1, commas))
    else if b = ascii ',' ∧ depth = 1 then .ok (.inl (depth, commas ++ [i]))
    else .ok (.inl (depth, commas))

section

variable (depth : Nat) (commas : List Nat) (i : Nat)

/-- An opening brace makes the group deeper. -/
theorem visitGroup_open :
    visitGroup (depth, commas) i (ascii '\x7b') = .ok (.inl (depth + 1, commas)) := by
  simp [visitGroup]

/-- The closing brace of the group itself ends the search. -/
theorem visitGroup_close_one : visitGroup (1, commas) i (ascii '\x7d') = .ok (.inr (commas, i)) :=
  rfl

/-- The closing brace of an inner group makes the group less deep. -/
theorem visitGroup_close_add_two :
    visitGroup (depth + 2, commas) i (ascii '\x7d') = .ok (.inl (depth + 1, commas)) := rfl

/-- A comma is kept if it is one of the group itself. -/
theorem visitGroup_comma : visitGroup (depth + 1, commas) i (ascii ',') =
    .ok (.inl (depth + 1, if depth = 0 then commas ++ [i] else commas)) := by
  have hne : ascii ',' ≠ ascii '\x7b' ∧ ascii ',' ≠ ascii '\x7d' := by decide
  simp only [visitGroup, if_neg hne.1, if_neg hne.2, true_and, Nat.add_eq_right]
  split <;> rfl

end

/-- The places of the commas and of the end of the group that is opened at a place, if it is
closed. -/
def group? (s : List UInt8) (i : Nat) : Except PlaceFault (Option (List Nat × Nat)) :=
  search visitGroup s (0, []) i

/-- The places of a group with commas of its own: its braces and these commas. -/
structure PlacedGroup where
  opening : Nat
  commas : List Nat
  closing : Nat

/-- Look for a brace that opens a group with commas of its own. -/
def visitBrace (s : List UInt8) : Unit → Nat → UInt8 → Except PlaceFault (Unit ⊕ PlacedGroup)
  | (), i, b =>
    if b = ascii '\x7b' then
      match group? s i with
      | .ok (some (comma :: commas, j)) => .ok (.inr ⟨i, comma :: commas, j⟩)
      | .ok _ => .ok (.inl ())
      | .error fault => .error fault
    else .ok (.inl ())

/-- The first group with commas of its own. -/
def firstGroup? (s : List UInt8) : Except PlaceFault (Option PlacedGroup) :=
  search (visitBrace s) s () 0

/-! ## Writing out -/

/-- The slices between places that follow one another, up to an end. -/
def slices (s : List UInt8) (stop : Nat) : List Nat → Except PlaceFault (List (List UInt8))
  | [] => .ok []
  | [i] => do return [← slice s (i + 1) stop]
  | i :: j :: places => do return (← slice s (i + 1) j) :: (← slices s stop (j :: places))

/-- The text with each alternative of its first group in the place of the group, if there is one. -/
def writeOut (s : List UInt8) : Except PlaceFault (Option (List (List UInt8))) := do
  match ← firstGroup? s with
  | none => return none
  | some g =>
    let before ← slice s 0 g.opening
    let after ← slice s (g.closing + 1) s.length
    let alternatives ← slices s g.closing (g.opening :: g.commas)
    return some (alternatives.map (before ++ · ++ after))

/-- A group is written out by its slices: what comes before it, its alternatives, and what comes
after it. -/
theorem writeOut_of_firstGroup? {s before after : List UInt8} {g : PlacedGroup}
    {alternatives : List (List UInt8)} (hfirst : firstGroup? s = .ok (some g))
    (hbefore : slice s 0 g.opening = .ok before)
    (hafter : slice s (g.closing + 1) s.length = .ok after)
    (halternatives : slices s g.closing (g.opening :: g.commas) = .ok alternatives) :
    writeOut s = .ok (some (alternatives.map (before ++ · ++ after))) := by
  simp only [writeOut, bind, Except.bind, hfirst, hbefore, hafter, halternatives]
  rfl

/-! ## Places are in order -/

/-- Whether places stand **between** two others that are in order. -/
def AreBetween (i : Nat) (places : List Nat) (j : Nat) : Prop := i ≤ j ∧ ∀ k ∈ places, i ≤ k ∧ k ≤ j

section

variable {i j k : Nat} {places : List Nat}

/-- No places stand between any place and itself. -/
theorem areBetween_nil (i : Nat) : AreBetween i [] i := ⟨Nat.le_refl i, by simp⟩

/-- Places before an end stand before every later end. -/
theorem AreBetween.mono (h : AreBetween i places j) (hjk : j ≤ k) : AreBetween i places k :=
  ⟨Nat.le_trans h.1 hjk, fun l hl => ⟨(h.2 l hl).1, Nat.le_trans (h.2 l hl).2 hjk⟩⟩

/-- The end may be added to the places before it. -/
theorem AreBetween.concat (h : AreBetween i places j) : AreBetween i (places ++ [j]) j := by
  refine ⟨h.1, fun k hk => ?_⟩
  rcases List.mem_append.1 hk with hk | hk
  · exact h.2 k hk
  · obtain rfl := List.mem_singleton.1 hk
    exact ⟨h.1, Nat.le_refl k⟩

end

/-- What a search keeps while it goes forward holds of its answer. -/
theorem search_invariant {σ ρ : Type} {visit : σ → Nat → UInt8 → Except PlaceFault (σ ⊕ ρ)}
    {s : List UInt8} (Inv : σ → Nat → Prop) (P : ρ → Prop)
    (hmono : ∀ st i j, i ≤ j → Inv st i → Inv st j)
    (hnext : ∀ st i b st', Inv st i → visit st i b = .ok (.inl st') → Inv st' (i + 1))
    (hanswer : ∀ st i b r, Inv st i → visit st i b = .ok (.inr r) → P r) {st : σ} {i : Nat} {r : ρ}
    (hinv : Inv st i) (h : search visit s st i = .ok (some r)) : P r := by
  fun_induction search visit s st i with
  | case1 => cases h
  | case2 st i j hj _ ih => exact ih (hmono st i j (Nat.le_of_lt (lt_of_skipClass hj)) hinv) h
  | case3 => cases h
  | case4 st i b hb hbracket st' hvisit ih => exact ih (hnext st i b st' hinv hvisit) h
  | case5 st i b hb hbracket answer hvisit =>
    cases h
    exact hanswer st i b r hinv hvisit
  | case6 => cases h

/-- A visit that goes on adds at most its own place to the commas. -/
theorem visitGroup_eq_inl {depth i : Nat} {commas : List Nat} {b : UInt8} {st : Nat × List Nat}
    (h : visitGroup (depth, commas) i b = .ok (.inl st)) :
    st.2 = commas ∨ st.2 = commas ++ [i] := by
  simp only [visitGroup] at h
  split at h
  · cases h
    exact .inl rfl
  · split at h
    · split at h
      · cases h
      · cases h
      · cases h
        exact .inl rfl
    · split at h
      · cases h
        exact .inr rfl
      · cases h
        exact .inl rfl

/-- A visit that ends the search gives the commas so far and its own place. -/
theorem visitGroup_eq_inr {depth i : Nat} {commas : List Nat} {b : UInt8} {r : List Nat × Nat}
    (h : visitGroup (depth, commas) i b = .ok (.inr r)) : r = (commas, i) := by
  simp only [visitGroup] at h
  split at h
  · cases h
  · split at h
    · split at h
      · cases h
      · cases h
        rfl
      · cases h
    · split at h <;> cases h

/-- The commas of a group stand between its braces. -/
theorem areBetween_of_group? {s : List UInt8} {i j : Nat} {commas : List Nat}
    (h : group? s i = .ok (some (commas, j))) : AreBetween i commas j := by
  refine search_invariant (fun st k => AreBetween i st.2 k) (fun r => AreBetween i r.1 r.2) ?_ ?_ ?_
    (areBetween_nil i) h
  · exact fun _ _ _ hle hst => hst.mono hle
  · rintro ⟨depth, commas⟩ k b st' hst hvisit
    refine AreBetween.mono ?_ (Nat.le_succ k)
    rcases visitGroup_eq_inl hvisit with hcommas | hcommas
    · rwa [hcommas]
    · rw [hcommas]
      exact hst.concat
  · rintro ⟨depth, commas⟩ k b r hst hvisit
    obtain rfl := visitGroup_eq_inr hvisit
    exact hst

/-- The commas of the first group stand between its braces. -/
theorem areBetween_of_firstGroup? {s : List UInt8} {g : PlacedGroup}
    (h : firstGroup? s = .ok (some g)) : AreBetween g.opening g.commas g.closing := by
  refine search_invariant (fun _ _ => True) (fun g => AreBetween g.opening g.commas g.closing)
    (fun _ _ _ _ _ => trivial) (fun _ _ _ _ _ _ => trivial) ?_ trivial h
  rintro ⟨⟩ i b g - hvisit
  simp only [visitBrace] at hvisit
  split at hvisit
  · split at hvisit
    · next comma commas j hgroup =>
      cases hvisit
      exact areBetween_of_group? hgroup
    · cases hvisit
    · cases hvisit
  · cases hvisit

/-! ## Writing out makes a text shorter -/

/-- A slice lies in the text, and is as long as its places say. -/
theorem of_slice {s t : List UInt8} {i j : Nat} (h : slice s i j = .ok t) :
    i ≤ j ∧ j ≤ s.length ∧ t.length + i = j := by
  unfold slice at h
  split at h
  · split at h
    · cases h
      rw [List.length_drop, List.length_take]
      omega
    · cases h
  · cases h

/-- A slice between places is shorter than what lies between the first and the last of them. -/
theorem length_lt_of_slices {s t : List UInt8} {ts : List (List UInt8)}
    {start stop : Nat} {places : List Nat} (h : slices s stop places = .ok ts)
    (hplaces : ∀ i ∈ places, start ≤ i ∧ i ≤ stop) (ht : t ∈ ts) : t.length + start < stop := by
  -- Along the places: each slice lies between two of them that follow one another.
  fun_induction slices s stop places generalizing ts with
  | case1 =>
    cases h
    cases ht
  | case2 i =>
    obtain ⟨u, hu, h⟩ := bind_eq_ok_iff.1 h
    obtain rfl := pure_eq_ok_iff.1 h
    obtain rfl := List.mem_singleton.1 ht
    have hslice := of_slice hu
    have hi := hplaces i List.mem_cons_self
    omega
  | case3 i j places ih =>
    obtain ⟨u, hu, h⟩ := bind_eq_ok_iff.1 h
    obtain ⟨us, hus, h⟩ := bind_eq_ok_iff.1 h
    obtain rfl := pure_eq_ok_iff.1 h
    rcases List.mem_cons.1 ht with rfl | ht
    · have hslice := of_slice hu
      have hi := hplaces i List.mem_cons_self
      have hj := hplaces j (List.mem_cons_of_mem i List.mem_cons_self)
      omega
    · exact ih hus (fun k hk => hplaces k (List.mem_cons_of_mem i hk)) ht

/-- **Each text that is written out is shorter.** -/
theorem length_lt_of_writeOut {s t : List UInt8} {ts : List (List UInt8)}
    (h : writeOut s = .ok (some ts)) (ht : t ∈ ts) : t.length < s.length := by
  obtain ⟨g?, hg, h⟩ := bind_eq_ok_iff.1 h
  cases g? with
  | none => cases h
  | some g =>
    obtain ⟨before, hbefore, h⟩ := bind_eq_ok_iff.1 h
    obtain ⟨after, hafter, h⟩ := bind_eq_ok_iff.1 h
    obtain ⟨alternatives, halternatives, h⟩ := bind_eq_ok_iff.1 h
    obtain rfl := Option.some.inj (pure_eq_ok_iff.1 h)
    obtain ⟨u, hu, rfl⟩ := List.mem_map.1 ht
    obtain ⟨hle, hcommas⟩ := areBetween_of_firstGroup? hg
    have hplaces : ∀ i ∈ g.opening :: g.commas, g.opening ≤ i ∧ i ≤ g.closing := by
      simpa using ⟨hle, hcommas⟩
    -- The braces themselves are written out no more.
    have hbefore := of_slice hbefore
    have hafter := of_slice hafter
    have hlen := length_lt_of_slices halternatives hplaces hu
    rw [List.length_append, List.length_append]
    omega

/-- Write out the first group until there is none, each text that comes of it in turn. -/
def expand (s : List UInt8) : Except PlaceFault (List (List UInt8)) :=
  match _h : writeOut s with
  | .ok none => .ok [s]
  | .ok (some ts) => (ts.attach.mapM fun t => expand t.1).map List.flatten
  | .error fault => .error fault
termination_by s.length
decreasing_by exact length_lt_of_writeOut _h t.2

/-- A text without a group to write out is its own expansion. -/
theorem expand_of_writeOut {s : List UInt8} (h : writeOut s = .ok none) : expand s = .ok [s] := by
  rw [expand]
  split <;> simp_all

/-- A text with a group expands to what each way of writing it out expands to. -/
theorem expand_of_writeOut_some {s : List UInt8} {ts : List (List UInt8)}
    (h : writeOut s = .ok (some ts)) : expand s = (ts.mapM expand).map List.flatten := by
  rw [expand]
  split
  · simp_all
  · next ts' h' =>
    obtain rfl : ts = ts' := by simpa using h.symm.trans h'
    rw [List.mapM_subtype (fun _ _ => rfl), List.unattach_attach]
  · simp_all

end ImportLint.Glob
