import Mathlib.Data.List.Basic

/-! Singly linked lists whose nodes are held elsewhere: a function names the next node of each.
Changing one link cuts a list in two or joins two lists. -/

namespace Library

open Function

variable {α : Type}

inductive Linked (next : α → Option α) : Option α → List α → Prop
  | nil : Linked next none []
  | cons {node : α} {nodes : List α} (rest : Linked next (next node) nodes) :
    Linked next (some node) (node :: nodes)

namespace Linked

variable {next other : α → Option α} {start tail : Option α} {last : α} {nodes front back : List α}

theorem head? (linked : Linked next start nodes) : start = nodes.head? := by
  cases linked with
  | nil => rfl
  | cons => rfl

theorem congr (linked : Linked next start nodes) (same : ∀ node ∈ nodes, other node = next node) :
    Linked other start nodes := by
  induction linked with
  | nil => exact .nil
  | @cons node nodes rest ih =>
    obtain ⟨own, later⟩ := List.forall_mem_cons.mp same
    refine .cons ?_
    rw [own]
    exact ih later

theorem of_cons (linked : Linked next start (last :: nodes)) : start = some last ∧ Linked next (next last) nodes := by
  cases linked with
  | cons rest => exact ⟨rfl, rest⟩

theorem drop (linked : Linked next start (front ++ last :: back)) : Linked next (next last) back := by
  induction front generalizing start with
  | nil => exact linked.of_cons.2
  | cons node front ih => exact ih linked.of_cons.2

variable [DecidableEq α]

theorem relink {old : List α} (linked : Linked next start (front ++ last :: old)) (apart : last ∉ front)
    (more : Linked (update next last tail) tail back) :
    Linked (update next last tail) start (front ++ last :: back) := by
  induction front generalizing start with
  | nil =>
    cases linked with
    | cons rest =>
      refine .cons ?_
      rwa [update_self]
  | cons node front ih =>
    have different := List.ne_of_not_mem_cons apart
    have apart := List.not_mem_of_not_mem_cons apart
    cases linked with
    | cons rest =>
      refine .cons ?_
      rw [update_of_ne (Ne.symm different)]
      exact ih rest apart

theorem cut (linked : Linked next start (front ++ last :: back)) (apart : last ∉ front) :
    Linked (update next last none) start (front ++ [last]) :=
  linked.relink apart .nil

theorem join (linked : Linked next start (front ++ [last])) (more : Linked next tail back) (apart : last ∉ front)
    (fresh : last ∉ back) : Linked (update next last tail) start (front ++ last :: back) := by
  refine linked.relink apart (more.congr fun node member => update_of_ne ?_ _ _)
  rintro rfl
  exact fresh member

end Linked

end Library
