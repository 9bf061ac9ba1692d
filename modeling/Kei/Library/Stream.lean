import Kei.Library.Checked
import Mathlib.Data.List.Induction

/-! Machines that consume a stream one symbol at a time. `feed` records the answer
given to every symbol; the rules below split a stream at any point and carry an
invariant that may speak about the whole history. -/

namespace Library

variable {σ α β : Type}

def feed (step : σ → α → Checked (β × σ)) : σ → List α → Checked (List β × σ)
  | state, [] => .ok ([], state)
  | state, symbol :: rest => do
    let (answer, next) ← step state symbol
    let (answers, last) ← feed step next rest
    return (answer :: answers, last)

variable {step : σ → α → Checked (β × σ)}

@[simp] theorem feed_nil (state : σ) : feed step state [] = .ok ([], state) := rfl

variable {symbol : α}

theorem feed_cons_ok {state next : σ} {answer : β} (rest : List α)
    (stepped : step state symbol = .ok (answer, next)) :
    feed step state (symbol :: rest) =
      (feed step next rest).map fun (answers, last) => (answer :: answers, last) := by
  simp only [feed, stepped, Checked.bind_ok]
  cases feed step next rest <;> rfl

variable {answers : List β} {rest : List α}

theorem feed_cons {state next last : σ} {answer : β}
    (stepped : step state symbol = .ok (answer, next))
    (fed : feed step next rest = .ok (answers, last)) :
    feed step state (symbol :: rest) = .ok (answer :: answers, last) := by
  rw [feed_cons_ok rest stepped, fed]
  rfl

variable {state last : σ}

theorem feed_cons_split
    (fed : feed step state (symbol :: rest) = .ok (answers, last)) :
    ∃ answer next tail, answers = answer :: tail ∧ step state symbol = .ok (answer, next) ∧
      feed step next rest = .ok (tail, last) := by
  simp only [feed, Checked.bind_eq_ok, Prod.exists] at fed
  obtain ⟨answer, next, stepped, tail, final, fedTail, same⟩ := fed
  simp only [pure, Except.pure, Except.ok.injEq, Prod.mk.injEq] at same
  obtain ⟨rfl, rfl⟩ := same
  exact ⟨answer, next, tail, rfl, stepped, fedTail⟩

variable {left right : List α}

theorem feed_append {state middle last : σ} {first second : List β}
    (fedLeft : feed step state left = .ok (first, middle))
    (fedRight : feed step middle right = .ok (second, last)) :
    feed step state (left ++ right) = .ok (first ++ second, last) := by
  induction left generalizing state first with
  | nil =>
    simp only [feed_nil, Except.ok.injEq, Prod.mk.injEq] at fedLeft
    obtain ⟨rfl, rfl⟩ := fedLeft
    exact fedRight
  | cons symbol rest ih =>
    obtain ⟨answer, next, tail, rfl, stepped, fedTail⟩ := feed_cons_split fedLeft
    exact feed_cons stepped (ih fedTail)

theorem feed_append_split
    (fed : feed step state (left ++ right) = .ok (answers, last)) :
    ∃ first second middle, answers = first ++ second ∧ feed step state left = .ok (first, middle) ∧
      feed step middle right = .ok (second, last) := by
  induction left generalizing state answers with
  | nil => exact ⟨[], answers, state, rfl, rfl, fed⟩
  | cons symbol rest ih =>
    obtain ⟨answer, next, tail, rfl, stepped, fedTail⟩ := feed_cons_split fed
    obtain ⟨first, second, middle, rfl, fedLeft, fedRight⟩ := ih fedTail
    exact ⟨answer :: first, second, middle, rfl, feed_cons stepped fedLeft, fedRight⟩

theorem feed_length {symbols : List α}
    (fed : feed step state symbols = .ok (answers, last)) : answers.length = symbols.length := by
  induction symbols generalizing state answers with
  | nil =>
    simp only [feed_nil, Except.ok.injEq, Prod.mk.injEq] at fed
    simp [← fed.1]
  | cons symbol rest ih =>
    obtain ⟨answer, next, tail, rfl, _, fedTail⟩ := feed_cons_split fed
    simp [ih fedTail]

variable {start : σ}

/-- The invariant rule. The invariant sees the consumed symbols and the answers
they got, and a step that meets it never panics. -/
theorem feed_invariant (invariant : List α → List β → σ → Prop)
    (initial : invariant [] [] start)
    (preserved : ∀ symbols answers state symbol, invariant symbols answers state →
      ∃ answer next, step state symbol = .ok (answer, next) ∧
        invariant (symbols ++ [symbol]) (answers ++ [answer]) next) :
    ∀ symbols, ∃ answers last, feed step start symbols = .ok (answers, last) ∧
      invariant symbols answers last := by
  intro symbols
  induction symbols using List.reverseRecOn with
  | nil => exact ⟨[], start, rfl, initial⟩
  | append_singleton symbols symbol ih =>
    obtain ⟨answers, state, fed, holds⟩ := ih
    obtain ⟨answer, next, stepped, kept⟩ := preserved symbols answers state symbol holds
    exact ⟨answers ++ [answer], next, feed_append fed (feed_cons stepped rfl), kept⟩

/-- What every step keeps, a run keeps. -/
theorem feed_meets {tolerated : Panic → Prop} (holds : σ → Prop)
    (preserved : ∀ state symbol, holds state →
      Checked.Meets tolerated (step state symbol) fun (_, next) => holds next)
    (initial : holds start) (symbols : List α) :
    Checked.Meets tolerated (feed step start symbols) fun (_, last) => holds last := by
  induction symbols generalizing start with
  | nil => exact initial
  | cons symbol symbols ih =>
    refine (preserved start symbol initial).bind ?_
    rintro ⟨answer, next⟩ kept
    exact (ih kept).bind fun _ final => final

/-- Two outcomes agree if both are the same panic, or both give the same answer in related states. -/
inductive Agree {τ : Type} (related : σ → τ → Prop) (left : Checked (β × σ))
    (right : Checked (β × τ)) : Prop
  | returns {answer state other} : left = .ok (answer, state) → right = .ok (answer, other) →
      related state other → Agree related left right
  | panics {panic} : left = .error panic → right = .error panic → Agree related left right

theorem feed_agree {τ : Type} {related : σ → τ → Prop} {other : τ → α → Checked (β × τ)}
    (agree : ∀ {state spec} symbol, related state spec → Agree related (step state symbol) (other spec symbol))
    {spec : τ} (initial : related start spec) (symbols : List α) :
    Agree related (feed step start symbols) (feed other spec symbols) := by
  induction symbols generalizing start spec with
  | nil => exact .returns rfl rfl initial
  | cons symbol symbols ih =>
    simp only [feed]
    rcases agree symbol initial with ⟨ran, specified, next⟩ | ⟨ran, specified⟩
    · rw [ran, specified, Checked.bind_ok, Checked.bind_ok]
      rcases ih next with ⟨rest, also, last⟩ | ⟨rest, also⟩
      · exact .returns (by rw [rest]; rfl) (by rw [also]; rfl) last
      · exact .panics (by rw [rest]; rfl) (by rw [also]; rfl)
    · exact .panics (by rw [ran]; rfl) (by rw [specified]; rfl)

/-! Machines that are only driven, without answers. -/

def runAll (step : σ → α → Checked σ) (start : σ) (actions : List α) : Checked σ :=
  actions.foldlM step start

@[simp] theorem runAll_nil (step : σ → α → Checked σ) (start : σ) : runAll step start [] = .ok start := rfl

variable {step : σ → α → Checked σ}

theorem runAll_cons {start next : σ} {action : α}
    (stepped : step start action = .ok next) :
    runAll step start (action :: rest) = runAll step next rest := by
  simp only [runAll, List.foldlM_cons, stepped, Checked.bind_ok]

theorem runAll_append {start middle : σ}
    (ran : runAll step start left = .ok middle) :
    runAll step start (left ++ right) = runAll step middle right := by
  simp only [runAll] at ran ⊢
  rw [List.foldlM_append, ran, Checked.bind_ok]

theorem runAll_invariant (invariant : List α → σ → Prop)
    (initial : invariant [] start)
    (preserved : ∀ actions state action, invariant actions state →
      ∃ next, step state action = .ok next ∧ invariant (actions ++ [action]) next) :
    ∀ actions, ∃ last, runAll step start actions = .ok last ∧ invariant actions last := by
  intro actions
  induction actions using List.reverseRecOn with
  | nil => exact ⟨start, rfl, initial⟩
  | append_singleton actions action ih =>
    obtain ⟨state, ran, holds⟩ := ih
    obtain ⟨next, stepped, kept⟩ := preserved actions state action holds
    refine ⟨next, ?_, kept⟩
    rw [runAll_append ran, runAll_cons stepped, runAll_nil]

/-- For machines that may panic: what every completed step keeps, a completed run keeps. -/
theorem runAll_preserves (holds : σ → Prop)
    (preserved : ∀ {state action next}, holds state → step state action = .ok next → holds next)
    {start last : σ} {actions : List α} (initial : holds start)
    (ran : runAll step start actions = .ok last) : holds last := by
  induction actions generalizing start with
  | nil =>
    cases ran
    exact initial
  | cons action rest ih =>
    obtain ⟨next, stepped, ran⟩ := Checked.bind_eq_ok.mp ran
    exact ih (preserved initial stepped) ran

theorem runAll_yields (holds : σ → Prop) {actions : List α}
    (preserved : ∀ state, ∀ action ∈ actions, holds state → Checked.Yields (step state action) holds)
    (initial : holds start) : Checked.Yields (runAll step start actions) holds :=
  Checked.meets_foldlM holds preserved initial

end Library
