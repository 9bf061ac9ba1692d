import Kei.SecureDisk.Ledger
import Mathlib.Data.List.Induction

/-! The tree refines a map while it runs: in every interleaving of requests with switches and
compactions, reads find the last value put, the levels stay disjoint, no merge fails and the
listener's account is exact. -/

namespace Kei.SecureDisk

open Library Checked TxLsmTree List

variable {V : Type}

namespace TxLsmTree

variable {tree : TxLsmTree V}

def mapped (answers : Nat → Option V) : TreeStep V → Nat → Option V
  | .put key value, other => if other = key then some value else answers other
  | _, other => answers other

theorem step_sound (sound : tree.Sound) (step : TreeStep V) :
    Ensures (tree.step step) fun next => next.Sound ∧ ∀ key, next.lookup key = mapped tree.lookup step key := by
  cases step with
  | put key value => exact putRecord_ensures sound key value
  | switch => exact switch_keeps sound
  | turn =>
    refine (compact_ensures sound).mono ?_
    rintro next ⟨compacted, -⟩
    exact ⟨compacted.sound, compacted.lookup⟩
  | sync => exact syncRecords_ensures sound

theorem step_ordered (sound : tree.Sound) (ordered : tree.Ordered) (step : TreeStep V) :
    Ensures (tree.step step) Ordered := by
  cases step with
  | put key value => exact putRecord_ordered ordered key value
  | switch => exact switch_ordered ordered
  | turn => exact compact_ordered sound ordered
  | sync => exact syncRecords_ordered sound ordered

end TxLsmTree

namespace TxLsmTree

variable {tree : TxLsmTree V}

structure Holds (tree : TxLsmTree V) (answers : Nat → Option V) : Prop where
  sound : tree.Sound
  ordered : tree.Ordered
  lookup : ∀ key, tree.lookup key = answers key

theorem format_holds (capacity : Nat) : (format capacity : TxLsmTree V).Holds fun _ => none :=
  ⟨format_sound capacity, format_ordered capacity, fun _ => rfl⟩

variable {answers : Nat → Option V}

theorem Holds.step (holds : tree.Holds answers) (step : TreeStep V) :
    Ensures (tree.step step) fun next => next.Holds (mapped answers step) := by
  rw [ensures_iff]
  intro next stepped
  obtain ⟨sound, reads⟩ := (step_sound holds.sound step).of_ok stepped
  refine ⟨sound, (step_ordered holds.sound holds.ordered step).of_ok stepped, ?_⟩
  intro key
  rw [reads, show tree.lookup = answers from funext holds.lookup]

/-- Reads find what a map holds. A range query answers every slot that was open, and is completed
if the map holds them all. -/
structure Reads (tree : TxLsmTree V) (answers : Nat → Option V) : Prop where
  get : ∀ key, tree.get key = .ok (answers key)
  getRange : ∀ (ctx : RangeQueryCtx V) skip, ctx.Tracks skip (fun _ => none) → ctx.isCompleted = false →
    ∃ result, tree.getRange ctx = .ok result ∧ result.1.Tracks skip answers ∧
      ctx.SameRange result.1 ∧ result.2 = result.1.isCompleted

theorem Holds.reads (holds : tree.Holds answers) : tree.Reads answers := by
  constructor
  · intro key
    obtain ⟨answer, found, same⟩ := (get_returns holds.sound key).exists_ok
    rw [found, same, holds.lookup]
  · intro ctx skip tracks left
    obtain ⟨result, found, tracks', range, completed⟩ :=
      (getRange_returns holds.sound tracks left).exists_ok
    rw [show tree.lookup = answers from funext holds.lookup] at tracks'
    exact ⟨result, found, tracks', range, completed⟩

end TxLsmTree

theorem recordsPut_append (front back : List (TreeStep V)) :
    recordsPut (front ++ back) = recordsPut front ++ recordsPut back := filterMap_append

theorem lastPut_append (steps : List (TreeStep V)) (step : TreeStep V) (key : Nat) :
    lastPut (steps ++ [step]) key = mapped (lastPut steps) step key := by
  rw [lastPut, recordsPut_append]
  cases step with
  | put other value => exact lastOf_append _ _ _ _
  | switch => exact congrArg (lastOf · key) (append_nil _)
  | turn => exact congrArg (lastOf · key) (append_nil _)
  | sync => exact congrArg (lastOf · key) (append_nil _)

namespace Listened

structure Agrees (steps : List (TreeStep V)) (listened : Listened V) : Prop where
  holds : listened.tree.Holds (lastPut steps)
  ledger : (listened.told + listened.tree.stored : Multiset (Nat × V)) = recordsPut steps

variable {steps : List (TreeStep V)}

theorem step_agrees {listened : Listened V} (agrees : listened.Agrees steps)
    (step : TreeStep V) : Ensures (listened.step step) (Agrees (steps ++ [step])) := by
  rw [ensures_iff]
  intro next ran
  obtain ⟨tree, stepped, ran⟩ := bind_eq_ok.mp ran
  cases ran
  have holds := (agrees.holds.step step).of_ok stepped
  have ledger := (step_ledger agrees.holds.sound agrees.holds.ordered step).of_ok stepped
  constructor
  · rwa [show lastPut (steps ++ [step]) = mapped (lastPut steps) step from
      funext (lastPut_append steps step)]
  · rw [← Multiset.coe_add, add_assoc, ledger, recordsPut_append, ← Multiset.coe_add, ← agrees.ledger]
    abel

theorem run_agrees (capacity : Nat) : Ensures (run capacity steps) (Agrees steps) := by
  induction steps using List.reverseRecOn with
  | nil => exact ⟨format_holds capacity, rfl⟩
  | append_singleton steps step ih =>
    rw [run, foldlM_append]
    refine ih.bind ?_
    intro listened agrees
    rw [foldlM_cons]
    exact (step_agrees agrees step).bind fun next agrees' => agrees'

end Listened

end Kei.SecureDisk
