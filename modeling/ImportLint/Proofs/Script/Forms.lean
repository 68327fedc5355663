import ImportLint.Script.Tree
import Mathlib.Data.List.Basic

/-!
# Reading forms off rows of trees

A form is read off a row of trees one tree after the other, and a token only if its kind admits its
text. So each token of a row that has a form is what its kind says it is, whichever way the form is
read.
-/

namespace ImportLint.Script

open Script.Tree

/-- What is **taken** off a row of trees to leave another one: of the tokens, only such as their
kinds admit. -/
def Takes (ts rest : List Tree) : Prop :=
  ∀ t text, token t text ∈ ts → token t text ∈ rest ∨ t.admits text = true

section

variable {ts us rest : List Tree}

/-- Taking nothing leaves everything. -/
theorem Takes.refl (ts : List Tree) : Takes ts ts := fun _ _ h => .inl h

/-- What is taken may be taken in two parts. -/
theorem Takes.trans (h : Takes ts us) (h' : Takes us rest) : Takes ts rest := by
  intro t text hmem
  rcases h t text hmem with hmem | hadmits
  · exact h' t text hmem
  · exact .inr hadmits

/-- A tree may be taken in front, if it is no token or one that is admitted. -/
theorem Takes.cons {u : Tree} (h : Takes us rest)
    (hu : ∀ t text, u = token t text → t.admits text = true) : Takes (u :: us) rest := by
  intro t text hmem
  rcases List.mem_cons.1 hmem with heq | hmem
  · exact .inr (hu t text heq.symm)
  · exact h t text hmem

/-- Gaps and strays are no tokens. -/
theorem takes_dropWhile_isLoose (ts : List Tree) : Takes ts (ts.dropWhile isLoose) := by
  induction ts with
  | nil => exact .refl []
  | cons u ts ih =>
    rw [List.dropWhile_cons]
    split
    · next hloose =>
      refine ih.cons ?_
      rintro t text rfl
      cases hloose
    · exact .refl _

/-- A step that takes, any number of times. -/
theorem takes_of_mem_remainders {step : List Tree → List (List Tree)}
    (hstep : ∀ ts, ∀ rest ∈ step ts, Takes ts rest) {n : Nat} (h : rest ∈ remainders step n ts) :
    Takes ts rest := by
  induction n generalizing ts with
  | zero =>
    obtain rfl := List.mem_singleton.1 h
    exact .refl _
  | succ n ih =>
    rw [remainders] at h
    rcases List.mem_cons.1 h with rfl | h
    · exact .refl _
    · obtain ⟨us, hus, hrest⟩ := List.mem_flatMap.1 h
      split at hrest
      · exact (hstep ts us hus).trans (ih hrest)
      · cases hrest

/-- **Reading a form** takes tokens that their kinds admit. -/
theorem takes_of_mem_strip {d : Dialect} {f : Form} (h : rest ∈ f.strip d ts) : Takes ts rest := by
  induction f generalizing ts rest with
  | nothing =>
    obtain rfl := List.mem_singleton.1 h
    exact .refl _
  | token t =>
    rw [Form.strip] at h
    split at h
    · next t' text rest' hdrop =>
      split at h
      · next hadmits =>
        rw [Bool.and_eq_true, decide_eq_true_eq] at hadmits
        obtain ⟨rfl, hadmits⟩ := hadmits
        obtain rfl := List.mem_singleton.1 h
        -- What is loose comes first, and then the token.
        refine (takes_dropWhile_isLoose ts).trans ?_
        rw [hdrop]
        refine (Takes.refl _).cons ?_
        intro t' text' heq
        obtain ⟨rfl, rfl⟩ := Tree.token.inj heq
        exact hadmits
      · cases h
    · cases h
  | part c =>
    rw [Form.strip] at h
    split at h
    · next c' children rest' hdrop =>
      split at h
      · obtain rfl := List.mem_singleton.1 h
        refine (takes_dropWhile_isLoose ts).trans ?_
        rw [hdrop]
        exact (Takes.refl _).cons fun _ _ heq => nomatch heq
      · cases h
    · cases h
  | both f g ihf ihg =>
    obtain ⟨us, hus, hrest⟩ := List.mem_flatMap.1 h
    exact (ihf hus).trans (ihg hrest)
  | either f g ihf ihg =>
    rcases List.mem_append.1 h with h | h
    · exact ihf h
    · exact ihg h
  | many f ih => exact takes_of_mem_remainders (fun _ _ hrest => ih hrest) h
  | only d' f ih =>
    rw [Form.strip] at h
    split at h
    · exact ih h
    · cases h
  | barring _ f ih => exact ih h

/-- **The tokens of a row that has a form** have texts that their kinds admit. -/
theorem admits_of_haveForm {d : Dialect} {f : Form} (h : haveForm d f ts = true)
    {t : Terminal} {text : List Char} (ht : token t text ∈ ts) : t.admits text = true := by
  obtain ⟨rest, hrest, hloose⟩ := List.any_eq_true.1 h
  rcases takes_of_mem_strip hrest t text ht with hmem | hadmits
  · -- Nothing that is left over is a token.
    cases List.all_eq_true.1 hloose _ hmem
  · exact hadmits

end

/-! ## What is loose in front -/

section

variable {ts rest : List Tree} {u : Tree} {d : Dialect} {f : Form}

/-- The number bounds the length of the row, and a larger one makes no difference. -/
theorem remainders_eq_of_le {step : List Tree → List (List Tree)} {n m : Nat} (hn : ts.length ≤ n)
    (hm : ts.length ≤ m) : remainders step n ts = remainders step m ts := by
  have hnil (k : Nat) : remainders step k [] = [[]] := by cases k <;> simp [remainders]
  -- Each step takes something, so as many steps as there are trees are enough.
  induction n generalizing m ts with
  | zero =>
    obtain rfl := List.length_eq_zero_iff.1 (Nat.le_zero.1 hn)
    rw [hnil, hnil]
  | succ n ih =>
    cases m with
    | zero =>
      obtain rfl := List.length_eq_zero_iff.1 (Nat.le_zero.1 hm)
      rw [hnil, hnil]
    | succ m =>
      rw [remainders, remainders]
      congr 2
      funext us
      split
      · next hlt => exact ih (by omega) (by omega)
      · rfl

/-- A step that leaves an end of a row, any number of times. -/
theorem suffix_of_mem_remainders {step : List Tree → List (List Tree)}
    (hstep : ∀ ts, ∀ rest ∈ step ts, rest <:+ ts) {n : Nat} (h : rest ∈ remainders step n ts) :
    rest <:+ ts := by
  induction n generalizing ts with
  | zero =>
    obtain rfl := List.mem_singleton.1 h
    exact List.suffix_rfl
  | succ n ih =>
    rw [remainders] at h
    rcases List.mem_cons.1 h with rfl | h
    · exact List.suffix_rfl
    · obtain ⟨us, hus, hrest⟩ := List.mem_flatMap.1 h
      split at hrest
      · exact (ih hrest).trans (hstep ts us hus)
      · cases hrest

/-- What comes after the first tree that is not loose is an end of the row. -/
theorem suffix_of_dropWhile_isLoose {v : Tree} {vs : List Tree}
    (h : ts.dropWhile isLoose = v :: vs) : vs <:+ ts :=
  (List.suffix_cons v vs).trans (h ▸ List.dropWhile_suffix _)

/-- That end is shorter than the row. -/
theorem length_lt_of_dropWhile_isLoose {v : Tree} {vs : List Tree}
    (h : ts.dropWhile isLoose = v :: vs) : vs.length < ts.length := by
  have hle := (List.dropWhile_suffix isLoose (l := ts)).length_le
  rwa [h] at hle

/-- **Reading a form** leaves an end of the row. -/
theorem suffix_of_mem_strip (h : rest ∈ f.strip d ts) : rest <:+ ts := by
  -- One case for each form. Tokens and parts are taken from behind what is loose.
  induction f generalizing ts rest with
  | nothing =>
    obtain rfl := List.mem_singleton.1 h
    exact List.suffix_rfl
  | token t =>
    rw [Form.strip] at h
    split at h
    · next hdrop =>
      split at h
      · obtain rfl := List.mem_singleton.1 h
        exact suffix_of_dropWhile_isLoose hdrop
      · cases h
    · cases h
  | part c =>
    rw [Form.strip] at h
    split at h
    · next hdrop =>
      split at h
      · obtain rfl := List.mem_singleton.1 h
        exact suffix_of_dropWhile_isLoose hdrop
      · cases h
    · cases h
  | both f g ihf ihg =>
    obtain ⟨us, hus, hrest⟩ := List.mem_flatMap.1 h
    exact (ihg hrest).trans (ihf hus)
  | either f g ihf ihg => exact (List.mem_append.1 h).elim ihf ihg
  | many f ih => exact suffix_of_mem_remainders (fun _ _ hrest => ih hrest) h
  | only d' f ih =>
    rw [Form.strip] at h
    split at h
    · exact ih h
    · cases h
  | barring _ f ih => exact ih h

/-- What a form leaves of a row with a tree in front, given what it leaves of the row: nothing was
taken if all of the row is left. -/
def keepFront (u : Tree) (ts rest : List Tree) : List Tree :=
  if rest.length = ts.length then u :: rest else rest

/-- A tree in front of all that is there is kept. -/
@[simp] theorem keepFront_self (u : Tree) (ts : List Tree) :
    keepFront u ts ts = u :: ts := if_pos rfl

/-- A tree is dropped if something behind it is taken. -/
theorem keepFront_of_lt (h : rest.length < ts.length) : keepFront u ts rest = rest :=
  if_neg (Nat.ne_of_lt h)

/-- Where some of the row was taken, what is left of the rest is left of the longer row too. -/
theorem map_keepFront_of_lt {us : List Tree} {rests : List (List Tree)}
    (hlt : us.length < ts.length) (h : ∀ rest ∈ rests, rest <:+ us) :
    rests.map (keepFront u ts) = rests := by
  have hkeep : ∀ rest ∈ rests, keepFront u ts rest = id rest := fun rest hrest =>
    keepFront_of_lt (Nat.lt_of_le_of_lt (h rest hrest).length_le hlt)
  rw [List.map_congr_left hkeep, List.map_id]

/-- An end of a row is the row or shorter. -/
theorem eq_or_length_lt_of_suffix (h : rest <:+ ts) : rest = ts ∨ rest.length < ts.length :=
  (Nat.lt_or_eq_of_le h.length_le).symm.imp_left h.eq_of_length

/-- A step that does not care for a tree in front, any number of times. -/
theorem remainders_cons {step : List Tree → List (List Tree)}
    (hsuffix : ∀ ts, ∀ rest ∈ step ts, rest <:+ ts)
    (hstep : step (u :: ts) = (step ts).map (keepFront u ts)) :
    remainders step (ts.length + 1) (u :: ts) =
      (remainders step ts.length ts).map (keepFront u ts) := by
  rw [remainders_eq_of_le (Nat.le_refl _) (Nat.le_succ ts.length), remainders,
    remainders, List.map_cons, keepFront_self, hstep, List.flatMap_map, List.map_flatMap]
  congr 1
  apply List.flatMap_congr
  intro us hus
  rcases eq_or_length_lt_of_suffix (hsuffix ts us hus) with rfl | hlt
  · simp
  · -- Something was taken, and the tree in front with it.
    have hlt' : us.length < (u :: ts).length := Nat.lt_succ_of_lt hlt
    rw [keepFront_of_lt hlt, if_pos hlt, if_pos hlt',
      map_keepFront_of_lt hlt fun _ hrest => suffix_of_mem_remainders hsuffix hrest]

/-- **A loose tree in front** of a row makes no difference to what a form leaves, but that it is
left if all is. -/
theorem strip_cons_of_isLoose (hu : u.isLoose = true) :
    f.strip d (u :: ts) = (f.strip d ts).map (keepFront u ts) := by
  -- What is loose goes with the first tree that is taken, and stays if none is.
  induction f generalizing ts with
  | nothing => exact congrArg (fun rest => [rest]) (keepFront_self u ts).symm
  | token t =>
    rw [Form.strip, Form.strip, List.dropWhile_cons_of_pos hu]
    split
    · next h => split <;> simp [keepFront_of_lt (length_lt_of_dropWhile_isLoose h)]
    · rfl
  | part c =>
    rw [Form.strip, Form.strip, List.dropWhile_cons_of_pos hu]
    split
    · next h => split <;> simp [keepFront_of_lt (length_lt_of_dropWhile_isLoose h)]
    · rfl
  | both f g ihf ihg =>
    rw [Form.strip, Form.strip, ihf, List.flatMap_map, List.map_flatMap]
    apply List.flatMap_congr
    intro us hus
    rcases eq_or_length_lt_of_suffix (suffix_of_mem_strip hus) with rfl | hlt
    · rw [keepFront_self, ihg]
    · rw [keepFront_of_lt hlt, map_keepFront_of_lt hlt fun _ hrest => suffix_of_mem_strip hrest]
  | either f g ihf ihg => rw [Form.strip, Form.strip, ihf, ihg, List.map_append]
  | many f ih => exact remainders_cons (fun _ _ hrest => suffix_of_mem_strip hrest) ih
  | only d' f ih =>
    rw [Form.strip, Form.strip]
    split
    · exact ih
    · rfl
  | barring _ f ih => exact ih

/-- What is loose in front of a row makes no difference to the forms that it has. -/
theorem haveForm_cons_of_isLoose (hu : u.isLoose = true) :
    haveForm d f (u :: ts) = haveForm d f ts := by
  rw [haveForm, haveForm, strip_cons_of_isLoose hu, List.any_map]
  congr 1
  funext rest
  simp only [Function.comp, keepFront]
  split <;> simp [hu]

end

end ImportLint.Script
