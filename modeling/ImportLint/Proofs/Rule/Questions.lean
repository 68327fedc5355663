import ImportLint.Proofs.Rule.Violations
import Mathlib.Algebra.Ring.Nat

/-!
# The questions of a check

A matcher may answer by a state of its own, and its answers say how a check goes on. So what a check
asks is told together with the answers: the targets are asked about in order up to the first that is
accepted, and then the restrictions of that entry for each import that names a module in quotes and
not relative to the file. The record of a matcher holds this and nothing else.
-/

namespace ImportLint

/-! ## Exchanges with a matcher -/

/-- An **exchange** with a matcher: a question and its answer. -/
structure Exchange where
  question : Question
  answer : Bool

/-- A matcher with a state of its own that keeps what it has been asked and has answered, the last
first. -/
def Matcher.overheard {σ : Type} (ask : Matcher (StateM σ)) :
    Matcher (StateM (σ × List Exchange)) :=
  fun q s => (((ask q).run s.1).1, ((ask q).run s.1).2, ⟨q, ((ask q).run s.1).1⟩ :: s.2)

/-- A matcher **answers** questions one after the other, from one state to another. -/
inductive Matcher.Answers {σ : Type} (ask : Matcher (StateM σ)) : σ → List Exchange → σ → Prop
  | nil {s : σ} : Answers ask s [] s
  | cons {s s' : σ} {q : Question} {es : List Exchange} (h : Answers ask ((ask q).run s).2 es s') :
    Answers ask s (⟨q, ((ask q).run s).1⟩ :: es) s'

/-- What a computation **asks** a matcher: from every state it comes by some exchanges to its result
and final state, and these and the result are as said. -/
def Matcher.Asks {σ α : Type} (ask : Matcher (StateM σ)) (x : StateM σ α)
    (P : List Exchange → α → Prop) : Prop :=
  ∀ s, ∃ es, ask.Answers s es (x.run s).2 ∧ P es (x.run s).1

namespace Matcher

section

variable {σ α β : Type} {ask : Matcher (StateM σ)} {s s' s'' : σ} {es es' : List Exchange}

/-- Answers from one state go on with answers from the state they end in. -/
theorem Answers.append (h : ask.Answers s es s') (h' : ask.Answers s' es' s'') :
    ask.Answers s (es ++ es') s'' := by
  induction h with
  | nil => exact h'
  | cons _ ih => exact .cons (ih h')

/-- A result that is there asks nothing. -/
theorem asks_pure {a : α} {P : List Exchange → α → Prop} (h : P [] a) : ask.Asks (pure a) P :=
  fun _ => ⟨[], .nil, h⟩

/-- A question is asked once. -/
theorem asks_one (q : Question) : ask.Asks (ask q) fun es answer => es = [⟨q, answer⟩] :=
  fun _ => ⟨_, .cons .nil, rfl⟩

/-- What is said of the exchanges may be put more weakly. -/
theorem Asks.mono {x : StateM σ α} {P P' : List Exchange → α → Prop} (h : ask.Asks x P)
    (himp : ∀ es a, P es a → P' es a) : ask.Asks x P' := by
  intro s
  obtain ⟨es, hes, hP⟩ := h s
  exact ⟨es, hes, himp _ _ hP⟩

/-- Of two computations in a row the second asks after the first. -/
theorem Asks.bind {x : StateM σ α} {f : α → StateM σ β} {first : List Exchange → α → Prop}
    {P : List Exchange → β → Prop} (hx : ask.Asks x first)
    (hf : ∀ es a, first es a → ask.Asks (f a) fun es' b => P (es ++ es') b) :
    ask.Asks (x >>= f) P := by
  intro s
  obtain ⟨es, hes, hfirst⟩ := hx s
  obtain ⟨es', hes', hP⟩ := hf es _ hfirst (x.run s).2
  exact ⟨es ++ es', hes.append hes', hP⟩

end

end Matcher

/-! ## Searches -/

/-- The exchanges of a **search** through items: each is refused, or one is accepted and those
before it are refused. -/
inductive Search {α : Type} (question : α → Question) (xs : List α) :
    Option α → List Exchange → Prop
  | refused : Search question xs none (xs.map fun x => ⟨question x, false⟩)
  | accepted (before : List α) {after : List α} {x : α} (hsplit : xs = before ++ x :: after) :
    Search question xs (some x) (before.map (fun y => ⟨question y, false⟩) ++ [⟨question x, true⟩])

namespace Search

variable {α : Type} {question : α → Question} {x : α} {xs : List α} {found : Option α}
  {es : List Exchange}

/-- A search may end at the first item. -/
theorem head : Search question (x :: xs) (some x) [⟨question x, true⟩] := .accepted [] rfl

/-- A search may go on after an item that is refused. -/
theorem cons (h : Search question xs found es) :
    Search question (x :: xs) found (⟨question x, false⟩ :: es) := by
  cases h with
  | refused => exact .refused
  | accepted before hsplit => exact .accepted (x :: before) (congrArg (x :: ·) hsplit)

end Search

section

variable {σ α : Type} {ask : Matcher (StateM σ)}

/-- Looking for an item that is accepted asks about one after the other, up to that item. -/
theorem asks_findM? (question : α → Question) (xs : List α) :
    ask.Asks (xs.findM? fun x => ask (question x)) fun es found => Search question xs found es := by
  induction xs with
  | nil => exact Matcher.asks_pure .refused
  | cons x xs ih =>
    rw [List.findM?]
    refine (Matcher.asks_one _).bind ?_
    rintro _ (_ | _) rfl
    · exact ih.mono fun _ _ => .cons
    · exact Matcher.asks_pure .head

/-- Asking whether any item is accepted asks about one after the other, up to that item. -/
theorem asks_anyM (question : α → Question) (xs : List α) :
    ask.Asks (xs.anyM fun x => ask (question x)) fun es _ =>
      ∃ found, Search question xs found es := by
  induction xs with
  | nil => exact Matcher.asks_pure ⟨none, .refused⟩
  | cons x xs ih =>
    rw [List.anyM]
    refine (Matcher.asks_one _).bind ?_
    rintro _ (_ | _) rfl
    · exact ih.mono fun _ _ ⟨found, h⟩ => ⟨found, h.cons⟩
    · exact Matcher.asks_pure ⟨some x, .head⟩

end

/-! ## Checks -/

/-- The exchanges about an import under an entry: none if it does not name a module in quotes or
names it relative to the file, and otherwise a search through the restrictions. -/
inductive Entry.Examines (e : Entry) (i : Import) : List Exchange → Prop
  | unquoted (hquotes : ∀ s, ¬ Quotes i.specifier s) : Examines e i []
  | relative {s : List Char} (hquotes : Quotes i.specifier s) (hdot : s.head? = some '.') :
      Examines e i []
  | restricted {s : List Char} {found : Option Glob.Pattern} {es : List Exchange}
      (hquotes : Quotes i.specifier s)
      (hdot : s.head? ≠ some '.')
      (hsearch : Search (fun r => ⟨String.ofList s, r⟩) e.restrictions found es) :
    Examines e i es

/-- The exchanges of a check: a search through the targets for the path of the file and, if it finds
an entry, those about each import under the entry. -/
inductive Config.Examines (config : Config) (file : Path) (imports : List Import) :
    List Exchange → List (List Exchange) → Prop
  | unselected {targets : List Exchange}
      (hsearch : Search (fun e => ⟨String.ofList file.normalize, e.target⟩) config.entries
        none targets) :
    Examines config file imports targets []
  | selected {e : Entry} {targets : List Exchange} {each : List (List Exchange)}
      (hsearch : Search (fun e => ⟨String.ofList file.normalize, e.target⟩) config.entries
        (some e) targets)
      (heach : List.Forall₂ e.Examines imports each) :
    Examines config file imports targets each

section

variable {σ : Type} {ask : Matcher (StateM σ)}

/-- Asking about an import examines it under the entry. -/
theorem asks_breach? (e : Entry) (i : Import) : ask.Asks (breach? ask e i) fun es _ =>
    e.Examines i es := by
  by_cases hquotes : ∃ s, Quotes i.specifier s
  · obtain ⟨s, hs⟩ := hquotes
    simp only [breach?, unquote?_eq_some_iff.2 hs, isRelative, beq_iff_eq]
    split
    · next hdot => exact Matcher.asks_pure (.relative hs hdot)
    · next hdot =>
      refine (asks_anyM _ _).bind ?_
      rintro es allowed ⟨found, hsearch⟩
      refine Matcher.asks_pure ?_
      rw [List.append_nil]
      exact .restricted hs hdot hsearch
  · rw [not_exists] at hquotes
    rw [breach?, unquote?_eq_none_iff.2 hquotes]
    exact Matcher.asks_pure (.unquoted hquotes)

/-- Asking about imports examines one after the other. -/
theorem asks_checkImports (severity : Severity) (e : Entry) (file : Path) (imports : List Import) :
    ask.Asks (checkImports ask severity e file imports) fun es _ =>
      ∃ each, List.Forall₂ e.Examines imports each ∧ es = each.flatten := by
  induction imports with
  | nil => exact Matcher.asks_pure ⟨[], .nil, rfl⟩
  | cons i is ih =>
    rw [checkImports]
    refine (asks_breach? e i).bind fun es _ hes => ih.bind ?_
    rintro _ vs ⟨each, heach, rfl⟩
    refine Matcher.asks_pure ⟨es :: each, .cons hes heach, ?_⟩
    rw [List.append_nil, List.flatten_cons]

/-- Asking about a file selects its entry and then examines its imports. -/
theorem asks_check (ask : Matcher (StateM σ)) (config : Config) (file : Path)
    (imports : List Import) :
    ask.Asks (check ask config file imports) fun es _ =>
      ∃ targets each, config.Examines file imports targets each ∧ es = targets ++ each.flatten := by
  refine (asks_findM? _ _).bind ?_
  rintro targets (_ | e) hsearch
  · exact Matcher.asks_pure ⟨targets, [], .unselected hsearch, rfl⟩
  · refine (asks_checkImports _ e file imports).mono ?_
    rintro _ vs ⟨each, heach, rfl⟩
    exact ⟨targets, each, .selected hsearch heach, rfl⟩

end

/-! ## Records -/

/-- What a matcher answers while it is overheard is what its record holds more than before. -/
theorem Matcher.Answers.record_eq {σ : Type} {ask : Matcher (StateM σ)} {s s' : σ × List Exchange}
    {es : List Exchange} (h : ask.overheard.Answers s es s') : s'.2 = es.reverse ++ s.2 := by
  induction h with
  | nil => rfl
  | cons _ ih =>
    rw [ih, List.reverse_cons, List.append_assoc]
    rfl

/-- **The questions of a check.** A check asks its matcher, whatever this keeps in mind, about the
targets in order up to the first that is accepted, and then, for each import in order that names a
module in quotes and not relative to the file, about the restrictions of that entry in order up to
the first that is accepted. The number of the questions is the sum of these. -/
theorem check_questions {σ : Type} (ask : Matcher (StateM σ)) (s : σ)
    (config : Config) (file : Path) (imports : List Import) :
    ∃ targets each, config.Examines file imports targets each ∧
      ((check ask.overheard config file imports).run (s, [])).2.2.reverse =
        targets ++ each.flatten ∧
      ((check ask.overheard config file imports).run (s, [])).2.2.length =
        targets.length + (each.map List.length).sum := by
  obtain ⟨_, hanswers, targets, each, hexamines, rfl⟩ :=
    asks_check ask.overheard config file imports (s, [])
  have hrecord := hanswers.record_eq
  rw [List.append_nil] at hrecord
  refine ⟨targets, each, hexamines, ?_, ?_⟩
  · rw [hrecord, List.reverse_reverse]
  · rw [hrecord, List.length_reverse, List.length_append, List.length_flatten]

/-- What a matcher without a state answers while its questions are kept. -/
theorem Matcher.Answers.questions_eq {ask : Matcher Id} {s s' : List Question} {es : List Exchange}
    (h : (Matcher.recorded ask).Answers s es s') :
    s' = (es.map (·.question)).reverse ++ s ∧ ∀ x ∈ es, x.answer = Id.run (ask x.question) := by
  induction h with
  | nil => simp
  | cons _ ih =>
    obtain ⟨ih, hanswers⟩ := ih
    refine ⟨?_, List.forall_mem_cons.2 ⟨rfl, hanswers⟩⟩
    rw [ih, List.map_cons, List.reverse_cons, List.append_assoc]
    rfl

/-- The questions of a check to a matcher whose answers depend on nothing but the question. -/
theorem check_recorded (ask : Matcher Id) (config : Config) (file : Path) (imports : List Import) :
    ∃ targets each, config.Examines file imports targets each ∧
      (∀ x ∈ targets ++ each.flatten, x.answer = Id.run (ask x.question)) ∧
      ((check (Matcher.recorded ask) config file imports).run []).2.reverse =
        (targets ++ each.flatten).map (·.question) := by
  obtain ⟨_, hanswers, targets, each, hexamines, rfl⟩ :=
    asks_check (Matcher.recorded ask) config file imports []
  obtain ⟨hquestions, hanswers⟩ := hanswers.questions_eq
  refine ⟨targets, each, hexamines, hanswers, ?_⟩
  rw [hquestions, List.append_nil, List.reverse_reverse]

/-- Two targets, and one restriction for the one import that has to satisfy some. -/
example : ((check (Matcher.recorded Matcher.literalStart)
    { entries := [⟨⟨"lib", []⟩, [⟨"x", []⟩], none⟩, ⟨⟨"src", []⟩, [⟨"vs", []⟩, ⟨"fs", []⟩], none⟩] }
    (Path.ofString "./src/a.ts") [⟨"'./b'".toList, 0, 8, 1, 0⟩, ⟨"'vs/c'".toList, 9, 9, 2, 0⟩,
      ⟨"react".toList, 19, 7, 3, 0⟩]).run []).2.reverse.map (fun q => (q.text, q.pattern.text)) =
    [("src/a.ts", "lib"), ("src/a.ts", "src"), ("vs/c", "vs")] := by
  decide +kernel

end ImportLint
