import Mathlib.Data.List.Basic

/-! A receiver that may take only the front of the data it is offered and says how much it
took. Blocks are offered one after the other; what it has taken is the acknowledged blocks
exactly when it took each of them whole. -/

namespace Library

open List

variable {σ α ε : Type}

structure TakesFronts (offer : σ → List α → Except ε Nat × σ) (taken : σ → List α) : Prop where
  took : ∀ {state data count next}, offer state data = (.ok count, next) →
    count ≤ data.length ∧ taken next = taken state ++ data.take count
  refused : ∀ {state data error next}, offer state data = (.error error, next) →
    taken next = taken state

namespace Sink

variable (offer : σ → List α → Except ε Nat × σ)

def offerAll : List (List α) → σ → List (Except ε Nat) × σ
  | [], state => ([], state)
  | block :: blocks, state =>
    let (answer, next) := offer state block
    let (answers, last) := offerAll blocks next
    (answer :: answers, last)

def acknowledged : List (List α) → List (Except ε Nat) → List α
  | block :: blocks, .ok _ :: answers => block ++ acknowledged blocks answers
  | _ :: blocks, .error _ :: answers => acknowledged blocks answers
  | _, _ => []

def Whole (state : σ) (block : List α) : Prop :=
  ∀ count, (offer state block).1 = .ok count → count = block.length

def AllWhole : List (List α) → σ → Prop
  | [], _ => True
  | block :: blocks, state => Whole offer state block ∧ AllWhole blocks (offer state block).2

variable {offer} {taken : σ → List α}

theorem length_taken_le (fronts : TakesFronts offer taken) (blocks : List (List α)) (state : σ) :
    (taken (offerAll offer blocks state).2).length ≤
      (taken state).length + (acknowledged blocks (offerAll offer blocks state).1).length := by
  induction blocks generalizing state with
  | nil => exact Nat.le_add_right _ _
  | cons block blocks ih =>
    rcases answered : offer state block with ⟨error | count, next⟩
    · have rest := ih next
      rw [fronts.refused answered] at rest
      simpa only [offerAll, answered, acknowledged] using rest
    · obtain ⟨_, grown⟩ := fronts.took answered
      have rest := ih next
      rw [grown, length_append, length_take] at rest
      simp only [offerAll, answered, acknowledged, length_append]
      omega

theorem taken_eq_iff (fronts : TakesFronts offer taken) (blocks : List (List α)) (state : σ) :
    taken (offerAll offer blocks state).2 =
        taken state ++ acknowledged blocks (offerAll offer blocks state).1 ↔
      AllWhole offer blocks state := by
  induction blocks generalizing state with
  | nil => simp [offerAll, acknowledged, AllWhole]
  | cons block blocks ih =>
    rcases answered : offer state block with ⟨error | count, next⟩
    · have rest := ih next
      rw [fronts.refused answered] at rest
      simpa [offerAll, acknowledged, AllWhole, Whole, answered] using rest
    · obtain ⟨within, grown⟩ := fronts.took answered
      have bounded := length_taken_le fronts blocks next
      have rest := ih next
      simp only [offerAll, acknowledged, AllWhole, Whole, answered, Except.ok.injEq, forall_eq']
      constructor
      · intro complete
        have total := congrArg length complete
        rw [grown] at bounded
        simp only [length_append, length_take] at total bounded
        have whole : count = block.length := by omega
        subst whole
        refine ⟨rfl, rest.mp ?_⟩
        rw [complete, grown, take_length, append_assoc]
      · rintro ⟨rfl, later⟩
        rw [rest.mpr later, grown, take_length, append_assoc]

end Sink

end Library
