import Mathlib.Data.List.Basic

/-! Computations that may panic. A value of `Checked` is either the result of an
execution or the check that stopped it, so "no index is out of range" is the
statement that a computation is an `.ok`. A loop that uses up the turns it is given
hangs. -/

namespace Library

open List

inductive Panic
  | indexOutOfBounds
  | sliceOutOfRange
  | addOverflow
  | subOverflow
  | mulOverflow
  | capacityOverflow
  | assertFailed
  | unwrapNone
  | outOfMemory
  | invalidAddress
  | hang
  deriving DecidableEq, Repr

abbrev Checked (α : Type) := Except Panic α

namespace Checked

def add (largest left right : Nat) : Checked Nat :=
  if left + right ≤ largest then .ok (left + right) else .error .addOverflow

def sub (left right : Nat) : Checked Nat :=
  if right ≤ left then .ok (left - right) else .error .subOverflow

def mul (largest left right : Nat) : Checked Nat :=
  if left * right ≤ largest then .ok (left * right) else .error .mulOverflow

def assert (holds : Bool) : Checked Unit := if holds then .ok () else .error .assertFailed

def unwrap {α : Type} : Option α → Checked α
  | some value => .ok value
  | none => .error .unwrapNone

def index {α : Type} (values : List α) (position : Nat) : Checked α :=
  match values[position]? with
  | some value => .ok value
  | none => .error .indexOutOfBounds

def store {α : Type} (values : List α) (position : Nat) (value : α) : Checked (List α) :=
  if position < values.length then .ok (values.set position value) else .error .indexOutOfBounds

def slice {α : Type} (values : List α) (start stop : Nat) : Checked (List α) :=
  if start ≤ stop ∧ stop ≤ values.length then .ok ((values.drop start).take (stop - start))
  else .error .sliceOutOfRange

variable {largest left right : Nat}

theorem add_ok (bound : left + right ≤ largest) : add largest left right = .ok (left + right) := by
  simp [add, bound]

theorem sub_ok {left right : Nat} (bound : right ≤ left) : sub left right = .ok (left - right) := by
  simp [sub, bound]

theorem mul_ok (bound : left * right ≤ largest) : mul largest left right = .ok (left * right) := by
  simp [mul, bound]

theorem index_getElem? {α : Type} {values : List α} {position : Nat} {value : α}
    (found : values[position]? = some value) : index values position = .ok value := by
  simp [index, found]

theorem slice_ok {α : Type} {values : List α} {start stop : Nat} (order : start ≤ stop)
    (bound : stop ≤ values.length) :
    slice values start stop = .ok ((values.drop start).take (stop - start)) := by
  simp [slice, order, bound]

theorem bind_ok {α β : Type} (value : α) (next : α → Checked β) :
    ((.ok value : Checked α) >>= next) = next value := rfl

theorem pure_eq_ok {α : Type} (value : α) : (pure value : Checked α) = .ok value := rfl

theorem bind_eq_ok {α β : Type} {first : Checked α} {next : α → Checked β} {result : β} :
    (first >>= next) = .ok result ↔ ∃ value, first = .ok value ∧ next value = .ok result := by
  cases first with
  | error panic => simp [bind, Except.bind]
  | ok value => simp [bind, Except.bind]

/-- The computation returns a value that satisfies `post`, or stops with a panic that is tolerated. -/
def Meets {α : Type} (tolerated : Panic → Prop) (computation : Checked α) (post : α → Prop) : Prop :=
  match computation with
  | .ok value => post value
  | .error panic => tolerated panic

/-- The computation does not panic. -/
abbrev Returns {α : Type} (computation : Checked α) (post : α → Prop) : Prop :=
  Meets (fun _ => False) computation post

/-- Nothing is said about a computation that panics. -/
abbrev Ensures {α : Type} (computation : Checked α) (post : α → Prop) : Prop :=
  Meets (fun _ => True) computation post

section Meets

variable {α β : Type} {tolerated : Panic → Prop}

theorem Meets.bind {first : Checked α} {next : α → Checked β} {mid : α → Prop} {post : β → Prop}
    (one : Meets tolerated first mid) (rest : ∀ value, mid value → Meets tolerated (next value) post) :
    Meets tolerated (first >>= next) post := by
  cases first with
  | error panic => exact one
  | ok value => exact rest value one

variable {computation : Checked α}

theorem Meets.mono {mid post : α → Prop} (meets : Meets tolerated computation mid)
    (weaker : ∀ value, mid value → post value) : Meets tolerated computation post := by
  cases computation with
  | error panic => exact meets
  | ok value => exact weaker value meets

variable {post : α → Prop}

theorem Meets.weaken {allowed : Panic → Prop}
    (meets : Meets tolerated computation post) (weaker : ∀ panic, tolerated panic → allowed panic) :
    Meets allowed computation post := by
  cases computation with
  | error panic => exact weaker panic meets
  | ok value => exact meets

theorem meets_ite {condition : Prop} [Decidable condition] {first second : Checked α}
    (one : condition → Meets tolerated first post) (two : ¬condition → Meets tolerated second post) :
    Meets tolerated (if condition then first else second) post := by
  split
  · exact one ‹_›
  · exact two ‹_›

theorem Meets.of_ok {value : α}
    (meets : Meets tolerated computation post) (ran : computation = .ok value) : post value := by
  subst ran
  exact meets

/-- The computation comes to an end, and its result satisfies `post` unless it panics. -/
def Yields {α : Type} (computation : Checked α) (post : α → Prop) : Prop :=
  match computation with
  | .ok value => post value
  | .error panic => panic ≠ .hang

theorem Yields.bind {first : Checked α} {next : α → Checked β} {mid : α → Prop} {post : β → Prop}
    (one : Yields first mid) (rest : ∀ value, mid value → Yields (next value) post) :
    Yields (first >>= next) post :=
  @Meets.bind _ _ (· ≠ .hang) _ _ _ _ one rest

theorem Yields.mono {mid : α → Prop} (yields : Yields computation mid)
    (weaker : ∀ value, mid value → post value) : Yields computation post :=
  @Meets.mono _ (· ≠ .hang) _ _ _ yields weaker

theorem Yields.of_ok {value : α} (yields : Yields computation post) (ran : computation = .ok value) : post value :=
  @Meets.of_ok _ (· ≠ .hang) _ _ _ yields ran

theorem Yields.ends (yields : Yields computation post) : computation ≠ .error .hang := by
  rintro rfl
  exact yields rfl

theorem yields_of_ends (ends : computation ≠ .error .hang) : Yields computation fun _ => True := by
  cases computation with
  | error panic => exact fun hangs => ends (congrArg _ hangs)
  | ok value => exact trivial

theorem add_yields (largest left right : Nat) :
    Yields (add largest left right) fun total => left + right ≤ largest ∧ total = left + right := by
  unfold add
  split
  · rename_i bound
    exact ⟨bound, rfl⟩
  · exact Panic.noConfusion

theorem assert_yields (holds : Bool) : Yields (assert holds) fun _ => holds = true := by
  cases holds with
  | true => rfl
  | false => exact Panic.noConfusion

theorem ensures_iff : Ensures computation post ↔ ∀ value, computation = .ok value → post value := by
  constructor
  · intro meets value ran
    exact meets.of_ok ran
  · intro every
    cases computation with
    | error panic => trivial
    | ok value => exact every value rfl

theorem ensures_result (computation : Checked α) :
    Ensures computation fun value => computation = .ok value :=
  ensures_iff.mpr fun _ ran => ran

theorem unwrap_ensures (option : Option α) :
    Ensures (unwrap option) fun value => option = some value := by
  cases option with
  | none => trivial
  | some value => rfl

theorem assert_ensures (holds : Bool) : Ensures (assert holds) fun _ => holds = true := by
  cases holds with
  | true => rfl
  | false => trivial

theorem sub_ensures (left right : Nat) :
    Ensures (sub left right) fun difference => right ≤ left ∧ difference = left - right := by
  unfold sub
  split
  · exact ⟨‹_›, rfl⟩
  · trivial

theorem ensures_true (computation : Checked α) : Ensures computation fun _ => True := by
  cases computation <;> trivial

theorem Meets.exists_ok
    (meets : Returns computation post) : ∃ value, computation = .ok value ∧ post value := by
  cases computation with
  | error panic => exact meets.elim
  | ok value => exact ⟨value, rfl, meets⟩

theorem Meets.before {first : Checked α} {next : α → Checked β} {mid : α → Prop} {post : β → Prop}
    (one : Returns first mid) (rest : ∀ value, mid value → Meets tolerated (next value) post) :
    Meets tolerated (first >>= next) post :=
  (one.weaken fun _ => False.elim).bind rest

theorem meets_foldlM {step : β → α → Checked β} (holds : β → Prop) {actions : List α}
    (preserved : ∀ state, ∀ action ∈ actions, holds state → Meets tolerated (step state action) holds)
    {start : β} (initial : holds start) : Meets tolerated (actions.foldlM step start) holds := by
  induction actions generalizing start with
  | nil => exact initial
  | cons action rest ih =>
    rw [foldlM_cons]
    refine (preserved start action mem_cons_self initial).bind ?_
    intro next kept
    exact ih (fun state action member => preserved state action (mem_cons_of_mem _ member)) kept

theorem meets_mapM {f : α → Checked β} {actions : List α} {post : β → Prop}
    (each : ∀ action ∈ actions, Meets tolerated (f action) post) :
    Meets tolerated (actions.mapM f) fun results =>
      results.length = actions.length ∧ ∀ result ∈ results, post result := by
  induction actions with
  | nil => exact ⟨rfl, by simp⟩
  | cons action rest ih =>
    rw [mapM_cons]
    refine (each action mem_cons_self).bind ?_
    intro value first
    refine (ih fun other member => each other (mem_cons_of_mem _ member)).bind ?_
    rintro values ⟨length, others⟩
    exact ⟨congrArg (· + 1) length, forall_mem_cons.mpr ⟨first, others⟩⟩

end Meets

section Lists

variable {α β : Type} {values : List α} {f : α → Checked β}

theorem mapM_ok {g : α → β} (each : ∀ value ∈ values, f value = .ok (g value)) :
    values.mapM f = .ok (values.map g) := by
  induction values with
  | nil => rfl
  | cons value rest ih =>
    rw [mapM_cons, each value mem_cons_self, bind_ok,
      ih fun other member => each other (mem_cons_of_mem _ member)]
    rfl

theorem ok_of_mapM {results : List β} (ran : values.mapM f = .ok results) :
    ∀ value ∈ values, ∃ result, f value = .ok result := by
  induction values generalizing results with
  | nil => simp
  | cons value rest ih =>
    rw [mapM_cons, bind_eq_ok] at ran
    obtain ⟨result, first, ran⟩ := ran
    obtain ⟨others, later, _⟩ := bind_eq_ok.mp ran
    exact forall_mem_cons.mpr ⟨⟨result, first⟩, ih later⟩

theorem filterMapM_ok {f : α → Checked (Option β)} {g : α → Option β}
    (each : ∀ value ∈ values, f value = .ok (g value)) : values.filterMapM f = .ok (values.filterMap g) := by
  induction values with
  | nil => rfl
  | cons value rest ih =>
    rw [filterMapM_cons, each value mem_cons_self, bind_ok,
      ih fun other member => each other (mem_cons_of_mem _ member)]
    cases found : g value with
    | none => rw [filterMap_cons_none found]
    | some result => rw [filterMap_cons_some found]; rfl

end Lists

end Checked

end Library
