import Mathlib.Data.List.Chain

/-! Lists of segments that lie end to end, and segments that carry the value a function has on
all their points. -/

namespace Library.Segments

variable {α κ : Type} (start stop : α → Nat)

/-- The segments cover `low` up to `high` in order, each from where the one before it stops. -/
def Tiles (low high : Nat) : List α → Prop
  | [] => low = high
  | segment :: rest => start segment = low ∧ low ≤ stop segment ∧ Tiles (stop segment) high rest

def Labelled (label : α → κ) (Value : Nat → κ → Prop) (segments : List α) : Prop :=
  ∀ segment ∈ segments, ∀ point, start segment ≤ point → point < stop segment → Value point (label segment)

variable {start stop} {low high mid : Nat} {segments : List α} {segment last : α}

theorem Tiles.le (tiles : Tiles start stop low high segments) : low ≤ high := by
  induction segments generalizing low with
  | nil => exact Nat.le_of_eq tiles
  | cons segment rest ih =>
    obtain ⟨_, order, after⟩ := tiles
    exact order.trans (ih after)

theorem Tiles.unique {other : Nat} (tiles : Tiles start stop low high segments)
    (again : Tiles start stop low other segments) : high = other := by
  induction segments generalizing low with
  | nil => exact Eq.trans (Eq.symm tiles) again
  | cons segment rest ih => exact ih tiles.2.2 again.2.2

theorem tiles_concat : Tiles start stop low high (segments ++ [last]) ↔
      Tiles start stop low (start last) segments ∧ start last ≤ stop last ∧ stop last = high := by
  induction segments generalizing low with
  | nil =>
    constructor
    · rintro ⟨rfl, order, rfl⟩
      exact ⟨rfl, order, rfl⟩
    · rintro ⟨same, order, rfl⟩
      obtain rfl : low = start last := same
      exact ⟨rfl, order, rfl⟩
  | cons segment rest ih => simp only [List.cons_append, Tiles, ih, and_assoc]

theorem Tiles.start_le (tiles : Tiles start stop low high segments) : ∀ each ∈ segments, low ≤ start each := by
  induction segments generalizing low with
  | nil => simp
  | cons segment rest ih =>
    obtain ⟨rfl, order, after⟩ := tiles
    intro each member
    rcases List.mem_cons.mp member with rfl | later
    · exact Nat.le_refl _
    · exact order.trans (ih after each later)

theorem Tiles.pairwise (tiles : Tiles start stop low high segments) :
    segments.Pairwise fun one other => stop one ≤ start other := by
  induction segments generalizing low with
  | nil => exact List.Pairwise.nil
  | cons segment rest ih => exact List.Pairwise.cons tiles.2.2.start_le (ih tiles.2.2)

variable {label : α → κ} {Value : Nat → κ → Prop}

theorem labelled_cons : Labelled start stop label Value (segment :: segments) ↔
      (∀ point, start segment ≤ point → point < stop segment → Value point (label segment)) ∧
        Labelled start stop label Value segments :=
  List.forall_mem_cons

theorem labelled_concat : Labelled start stop label Value (segments ++ [last]) ↔
      Labelled start stop label Value segments ∧
        ∀ point, start last ≤ point → point < stop last → Value point (label last) := by
  simp only [Labelled, List.mem_append, List.mem_singleton, or_imp, forall_and, forall_eq]

variable {grown : α}

theorem Tiles.extend (tiles : Tiles start stop low mid (segments ++ [last]))
    (same : start grown = start last) (order : mid ≤ high) (ends : stop grown = high) :
    Tiles start stop low high (segments ++ [grown]) := by
  rw [tiles_concat] at tiles ⊢
  obtain ⟨before, forward, rfl⟩ := tiles
  rw [same, ends]
  exact ⟨before, forward.trans order, rfl⟩

theorem Labelled.extend (labelled : Labelled start stop label Value (segments ++ [last]))
    (next : ∀ point, stop last ≤ point → point < stop grown → Value point (label last))
    (begins : start grown = start last) (same : label grown = label last) :
    Labelled start stop label Value (segments ++ [grown]) := by
  rw [labelled_concat] at labelled ⊢
  refine ⟨labelled.1, fun point above below => ?_⟩
  rw [same]
  rcases Nat.lt_or_ge point (stop last) with inside | past
  · exact labelled.2 point (begins ▸ above) inside
  · exact next point past below

theorem isChain_extend {Apart : α → α → Prop} (chain : (segments ++ [last]).IsChain Apart)
    (same : ∀ each, Apart each last → Apart each grown) : (segments ++ [grown]).IsChain Apart := by
  rw [List.isChain_append] at chain ⊢
  refine ⟨chain.1, List.isChain_singleton _, ?_⟩
  rintro each final _ ⟨⟩
  exact same each (chain.2.2 each final last rfl)

end Library.Segments
