import Kei.FrameAllocator.Pools
import Kei.FrameAllocator.BuddyRules
import Kei.Library.Settles

/-! What the calls on the pools do to the memory in them. The memory is measured by any
weight that adds up over adjoining ranges: the number of bytes, or whether an address is
in the range. -/

namespace Kei.FrameAllocator

open Library Checked Function

def Spread (weight : Nat → Nat → Nat) : Prop :=
  ∀ addr first second, weight addr (first + second) = weight addr first + weight (addr + first) second

def covers (point addr size : Nat) : Nat := if addr ≤ point ∧ point < addr + size then 1 else 0

theorem covers_eq_one {point addr size : Nat} : covers point addr size = 1 ↔ addr ≤ point ∧
    point < addr + size := by
  simp [covers]

theorem covers_le_one (point addr size : Nat) : covers point addr size ≤ 1 := by
  unfold covers
  split <;> omega

theorem covers_spread (point : Nat) : Spread (covers point) := by
  intro addr first second
  unfold covers
  grind

theorem size_spread : Spread fun _ size => size := fun _ _ _ => rfl

variable {weight : Nat → Nat → Nat}

theorem Spread.zero (spread : Spread weight) (addr : Nat) : weight addr 0 = 0 := by
  have := spread addr 0 0
  simp only [Nat.add_zero] at this
  omega

theorem Spread.additive (spread : Spread weight) :
    Additive fun order addr => weight addr (sizeOfOrder order) := by
  intro order addr
  dsimp only
  rw [sizeOfOrder_succ]
  exact spread addr _ _

theorem Spread.pieces (spread : Spread weight) (addr size : Nat) :
    ∀ number, weight addr (size * number) =
      ((List.range number).map fun index => weight (addr + size * index) size).sum := by
  intro number
  induction number with
  | zero => exact spread.zero addr
  | succ number ih =>
    rw [Nat.mul_succ, spread, ih, List.range_succ, List.map_append, List.sum_append]
    simp

variable {cpus : Nat}

namespace Session

def weigh (session : Session cpus) (weight : Nat → Nat → Nat) : Nat :=
  ∑ pool, (session.sets pool).weigh fun order addr => weight addr (sizeOfOrder order)

/-- Every pool is sound, no two pools hold the same address, and slots outside the pools are unused. -/
structure Sound (session : Session cpus) : Prop where
  each : ∀ pool, (session.sets pool).Sound session.slots
  apart : ∀ point, session.weigh (covers point) ≤ 1
  unused : ∀ {point}, session.weigh (covers point) = 0 → session.slots point = none

/-- How a call changes the pools: what goes in, what comes out, and that the global pool is changed only
under its lock. -/
structure Shifted (before after : Session cpus) (gain loss : (Nat → Nat → Nat) → Nat) : Prop where
  sound : after.Sound
  weighs : ∀ {weight}, Spread weight → after.weigh weight + loss weight = before.weigh weight + gain weight
  unlocked : after.locked = false → before.locked = false ∧ after.sets .global = before.sets .global

variable {session before after final : Session cpus} {gain loss moreGain moreLoss : (Nat → Nat → Nat) → Nat}

theorem Shifted.refl (sound : session.Sound) : Shifted session session (fun _ => 0) fun _ => 0 :=
  ⟨sound, fun _ => rfl, fun unlocked => ⟨unlocked, rfl⟩⟩

theorem Shifted.trans (first : Shifted before after gain loss) (second : Shifted after final moreGain moreLoss) :
    Shifted before final (fun weight => gain weight + moreGain weight) fun weight => loss weight + moreLoss weight where
  sound := second.sound
  weighs := fun spread => by
    have one := first.weighs spread
    have two := second.weighs spread
    omega
  unlocked := fun unlocked => by
    obtain ⟨mid, same⟩ := second.unlocked unlocked
    obtain ⟨start, also⟩ := first.unlocked mid
    exact ⟨start, same.trans also⟩

theorem Shifted.congr (shifted : Shifted before after gain loss)
    (same : ∀ {weight}, Spread weight → gain weight + moreLoss weight = moreGain weight + loss weight) :
    Shifted before after moreGain moreLoss where
  __ := shifted
  weighs := fun spread => by
    have one := shifted.weighs spread
    have two := same spread
    omega

theorem weigh_update (session : Session cpus) (pool : PoolId cpus) (set : BuddySet pool.maxOrder) (slots : Slots)
    (locked : Bool) (weight : Nat → Nat → Nat) :
    weigh ⟨slots, update session.sets pool set, locked⟩ weight +
        (session.sets pool).weigh (fun order addr => weight addr (sizeOfOrder order)) =
      session.weigh weight + set.weigh fun order addr => weight addr (sizeOfOrder order) :=
  sum_update (fun _ set => BuddySet.weigh set fun order addr => weight addr (sizeOfOrder order)) session.sets
    (Finset.mem_univ pool) set

theorem le_weigh (session : Session cpus) (pool : PoolId cpus) (weight : Nat → Nat → Nat) :
    (session.sets pool).weigh (fun order addr => weight addr (sizeOfOrder order)) ≤ session.weigh weight :=
  Finset.single_le_sum (f := fun pool => (session.sets pool).weigh fun order addr => weight addr (sizeOfOrder order))
    (fun _ _ => Nat.zero_le _) (Finset.mem_univ pool)

theorem add_le_weigh (session : Session cpus) {pool other : PoolId cpus} (different : other ≠ pool)
    (weight : Nat → Nat → Nat) :
    (session.sets other).weigh (fun order addr => weight addr (sizeOfOrder order)) +
        (session.sets pool).weigh (fun order addr => weight addr (sizeOfOrder order)) ≤ session.weigh weight := by
  have split := session.weigh_update pool (BuddySet.newEmpty _) session.slots session.locked weight
  have part := le_weigh ⟨session.slots, update session.sets pool (BuddySet.newEmpty _), session.locked⟩
    other weight
  simp only [update_of_ne different] at part
  have nothing : (BuddySet.newEmpty pool.maxOrder).weigh (fun order addr => weight addr (sizeOfOrder order)) = 0 := by
    simp [BuddySet.newEmpty, BuddySet.weigh, Shelves.total]
  omega

end Session

theorem BuddySet.Sound.congr {maxOrder : Nat} {slots changed : Slots} {set : BuddySet maxOrder}
    (sound : set.Sound slots) (same : ∀ point, 0 < set.weigh (holds point) → changed point = slots point) :
    set.Sound changed :=
  ⟨sound.placed.congr same, sound.coalesced, sound.counted⟩

/-- The set has a chunk of this order or a larger one. -/
def BuddySet.Serves {maxOrder : Nat} (set : BuddySet maxOrder) (order : Nat) : Prop :=
  ∃ larger, larger < maxOrder ∧ order ≤ larger ∧ set.lists larger ≠ []

instance {maxOrder : Nat} (set : BuddySet maxOrder) (order : Nat) : Decidable (set.Serves order) :=
  inferInstanceAs (Decidable (∃ larger, larger < maxOrder ∧ _))

namespace Session

variable {session : Session cpus}

theorem Sound.replace {pool : PoolId cpus} {set : BuddySet pool.maxOrder} {slots : Slots} {locked : Bool}
    (sound : session.Sound) (setSound : set.Sound slots)
    (apart : ∀ point, weigh ⟨slots, update session.sets pool set, locked⟩ (covers point) ≤ 1)
    (frame : ∀ {point}, (session.sets pool).weigh (holds point) = 0 → set.weigh (holds point) = 0 →
      slots point = session.slots point)
    (released : ∀ {point}, (session.sets pool).weigh (holds point) ≠ 0 → set.weigh (holds point) = 0 →
      slots point = none) :
    Sound ⟨slots, update session.sets pool set, locked⟩ where
  each := fun other => by
    dsimp only
    by_cases here : other = pool
    · subst here
      rw [update_self]
      exact setSound
    · rw [update_of_ne here]
      refine (sound.each other).congr fun point covered => frame ?_ ?_
      · have both := session.add_le_weigh here (covers point)
        have := sound.apart point
        change (session.sets other).weigh (holds point) + (session.sets pool).weigh (holds point) ≤ _ at both
        omega
      · have both := add_le_weigh ⟨slots, update session.sets pool set, locked⟩ here (covers point)
        have := apart point
        simp only [update_of_ne here, update_self] at both
        change (session.sets other).weigh (holds point) + set.weigh (holds point) ≤ _ at both
        omega
  apart := apart
  unused := fun {point} uncovered => by
    have split := session.weigh_update pool set slots locked (covers point)
    change _ + (session.sets pool).weigh (holds point) = _ + set.weigh (holds point) at split
    have part := le_weigh ⟨slots, update session.sets pool set, locked⟩ pool (covers point)
    simp only [update_self] at part
    change set.weigh (holds point) ≤ _ at part
    have setUncovered : set.weigh (holds point) = 0 := by omega
    by_cases old : (session.sets pool).weigh (holds point) = 0
    · exact (frame old setUncovered).trans (sound.unused (by omega))
    · exact released old setUncovered

theorem lock_rule (session : Session cpus) (pool : PoolId cpus) (set : BuddySet pool.maxOrder) :
    (session.locked || pool == .global) = false →
      session.locked = false ∧ update session.sets pool set .global = session.sets .global := by
  intro unlocked
  rw [Bool.or_eq_false_iff] at unlocked
  refine ⟨unlocked.1, update_of_ne ?_ _ _⟩
  rintro rfl
  simp at unlocked

/-- Only this pool changes, and it grows by the amount. -/
structure Grown (pool : PoolId cpus) (amount : Nat) (before after : Session cpus) : Prop where
  size : (after.sets pool).totalSize = (before.sets pool).totalSize + amount
  others : ∀ other, other ≠ pool → after.sets other = before.sets other

theorem insertChunk_rule {pool : PoolId cpus} {addr order : Nat} (sound : session.Sound)
    (aligned : sizeOfOrder order ∣ addr)
    (room : ∀ point, session.weigh (covers point) + covers point addr (sizeOfOrder order) ≤ 1) :
    Settles (order < pool.maxOrder) (session.insertChunk pool addr order) fun after =>
      Shifted session after (fun weight => weight addr (sizeOfOrder order)) (fun _ => 0) ∧
        Grown pool (sizeOfOrder order) session after := by
  by_cases bound : order < pool.maxOrder
  case neg => simp [Meets, insertChunk, BuddySet.insertChunk, assert, bound, bind, Except.bind]
  have free : ∀ point, holds point order addr = 1 →
      (session.sets pool).weigh (holds point) = 0 ∧ session.slots point = none := by
    intro point inside
    have total := room point
    change _ + holds point order addr ≤ 1 at total
    have part := session.le_weigh pool (covers point)
    change (session.sets pool).weigh (holds point) ≤ _ at part
    exact ⟨by omega, sound.unused (by omega)⟩
  refine (BuddySet.insertChunk_rule (sound.each pool) bound aligned free).before ?_
  rintro ⟨slots, set⟩ inserted
  have weighs : ∀ {weight}, Spread weight →
      weigh ⟨slots, update session.sets pool set, session.locked || pool == .global⟩ weight =
        session.weigh weight + weight addr (sizeOfOrder order) := by
    intro weight spread
    have split := session.weigh_update pool set slots (session.locked || pool == .global) weight
    have grown := inserted.weighs spread.additive
    omega
  have grown : ∀ point, set.weigh (holds point) = (session.sets pool).weigh (holds point) + holds point order addr :=
    fun point => inserted.weighs (holds_additive point)
  refine ⟨bound, ⟨sound.replace inserted.sound ?_ ?_ ?_, ?_, lock_rule session pool set⟩, ?_,
    fun other differs => update_of_ne differs _ _⟩
  · intro point
    rw [weighs (covers_spread point)]
    exact room point
  · exact fun _ uncovered => inserted.frame uncovered
  · intro point covered uncovered
    rw [grown] at uncovered
    omega
  · intro weight spread
    exact weighs spread
  · dsimp only
    rw [update_self, inserted.sound.counted, (sound.each pool).counted]
    exact inserted.weighs size_additive

structure Drawn (pool : PoolId cpus) (order addr : Nat) (before after : Session cpus) : Prop where
  shifted : Shifted before after (fun _ => 0) fun weight => weight addr (sizeOfOrder order)
  aligned : sizeOfOrder order ∣ addr
  serves : (before.sets pool).Serves order
  size : (after.sets pool).totalSize + sizeOfOrder order = (before.sets pool).totalSize
  others : ∀ other, other ≠ pool → after.sets other = before.sets other

structure Refused (pool : PoolId cpus) (order : Nat) (before after : Session cpus) : Prop where
  shifted : Shifted before after (fun _ => 0) fun _ => 0
  refused : ¬(before.sets pool).Serves order
  sets : after.sets = before.sets

theorem allocChunk_rule (sound : session.Sound) (pool : PoolId cpus) (order : Nat) :
    Returns (session.allocChunk pool order) fun (after, result) =>
      match result with
      | none => Refused pool order session after
      | some addr => Drawn pool order addr session after := by
  refine (BuddySet.allocChunk_rule (sound.each pool) order).bind ?_
  rintro ⟨slots, set, result⟩ outcome
  cases result with
  | none =>
    obtain ⟨rfl, rfl, nothing⟩ := outcome
    show Refused pool order session ⟨_, update session.sets pool _, _⟩
    have lock := lock_rule session pool (session.sets pool)
    rw [update_eq_self] at lock ⊢
    refine ⟨⟨{ sound with }, fun _ => rfl, lock⟩, ?_, rfl⟩
    exact fun ⟨other, bound, lower, filled⟩ => filled (nothing other lower bound)
  | some addr =>
    have taken : BuddySet.Taken session.slots (session.sets pool) order slots set addr := outcome
    obtain ⟨source, lower, bound, member, -⟩ := taken.smallest
    have weighs : ∀ {weight}, Spread weight →
        weigh ⟨slots, update session.sets pool set, session.locked || pool == .global⟩ weight +
          weight addr (sizeOfOrder order) = session.weigh weight := by
      intro weight spread
      have split := session.weigh_update pool set slots (session.locked || pool == .global) weight
      have shrunk := taken.weighs spread.additive
      omega
    have shrunk : ∀ point, set.weigh (holds point) + holds point order addr =
        (session.sets pool).weigh (holds point) := fun point => taken.weighs (holds_additive point)
    refine ⟨⟨sound.replace taken.sound ?_ ?_ ?_, ?_, lock_rule session pool set⟩, taken.aligned,
      ⟨source, bound, lower, List.ne_nil_of_mem member⟩, ?_, fun other differs => update_of_ne differs _ _⟩
    · intro point
      have := weighs (covers_spread point)
      have := sound.apart point
      omega
    · exact fun uncovered _ => taken.frame uncovered
    · intro point covered uncovered
      refine taken.unused ?_
      have := shrunk point
      by_contra outside
      have := holds_of_ne_one outside
      omega
    · intro weight spread
      exact weighs spread
    · dsimp only
      rw [update_self, taken.sound.counted, (sound.each pool).counted]
      exact taken.weighs size_additive

end Session

end Kei.FrameAllocator
