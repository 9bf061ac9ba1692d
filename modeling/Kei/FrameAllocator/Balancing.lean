import Kei.FrameAllocator.Tiling

/-! Balancing moves chunks between a CPU's pool and the global one. It leaves the memory in
the pools as it is, provided that there is at least a page to move whenever it decides to
move anything. -/

namespace Kei.FrameAllocator

open Library Checked List Nat

variable {cpus : Nat}

namespace Session

variable {session before after final : Session cpus} {pool : PoolId cpus}

theorem place_rule {addr order : Nat} (sound : session.Sound) (aligned : sizeOfOrder order ∣ addr)
    (room : ∀ point, session.weigh (covers point) + covers point addr (sizeOfOrder order) ≤ 1) :
    Returns (session.place pool addr order) fun after =>
      Shifted session after (fun weight => weight addr (sizeOfOrder order)) (fun _ => 0) ∧
        Grown pool (sizeOfOrder order) session after := by
  unfold place
  refine meets_ite (fun large => ?_) fun small => (insertChunk_rule sound aligned room).returns (Nat.not_le.mp small)
  have positive : 0 < pool.maxOrder := by cases pool <;> exact Nat.succ_pos _
  have divides : (addr % sizeOfOrder order == 0) = true := by simpa using Nat.mod_eq_zero_of_dvd aligned
  have le : pool.maxOrder - 1 ≤ order := by omega
  have size : sizeOfOrder order = sizeOfOrder (pool.maxOrder - 1) * 2 ^ (order - (pool.maxOrder - 1)) := by
    unfold sizeOfOrder
    rw [Nat.mul_right_comm, ← pow_add, Nat.add_sub_cancel' le]
  have whole : ∀ {weight}, Spread weight → weight addr (sizeOfOrder order) =
      (((range (2 ^ (order - (pool.maxOrder - 1)))).map fun index =>
        addr + sizeOfOrder (pool.maxOrder - 1) * index).map
          fun piece => weight piece (sizeOfOrder (pool.maxOrder - 1))).sum := by
    intro weight spread
    rw [size, spread.pieces, map_map]
    rfl
  unfold splitToOrder
  simp only [assert, divides, if_true, bind_ok, sub_ok le, pure_eq_ok]
  refine ((foldlM_settles (grown_counts pool) (fun piece weight => weight piece (sizeOfOrder (pool.maxOrder - 1)))
    (fun _ => sizeOfOrder (pool.maxOrder - 1)) ?_ sound ?_).returns fun _ _ => Nat.sub_lt positive one_pos).mono ?_
  · intro session piece member sound room
    obtain ⟨index, _, rfl⟩ := mem_map.mp member
    exact insertChunk_rule sound (Nat.dvd_add ((sizeOfOrder_dvd le).trans aligned) (Nat.dvd_mul_right _ _)) room
  · intro point
    rw [← whole (covers_spread point)]
    exact room point
  · rintro after ⟨shifted, grown⟩
    rw [← whole size_spread] at grown
    exact ⟨shifted.congr fun spread => by rw [whole spread], grown⟩

structure Moved (source target : PoolId cpus) (limit : Nat) (before after : Session cpus) : Prop where
  shifted : Shifted before after (fun _ => 0) fun _ => 0
  others : ∀ pool, pool ≠ source → pool ≠ target → after.sets pool = before.sets pool
  amount : ∃ moved ≤ limit, (after.sets source).totalSize + moved = (before.sets source).totalSize ∧
    (after.sets target).totalSize = (before.sets target).totalSize + moved

variable {source target : PoolId cpus}

theorem Moved.of_refused {limit order : Nat} (refused : Refused source order before after) :
    Moved source target limit before after where
  shifted := refused.shifted
  others := fun pool _ _ => congrFun refused.sets pool
  amount := ⟨0, zero_le _, by rw [refused.sets, add_zero], by rw [refused.sets, add_zero]⟩

theorem Moved.trans {first second : Nat} (one : Moved source target first before after)
    (two : Moved source target second after final) : Moved source target (first + second) before final where
  shifted := (one.shifted.trans two.shifted).congr fun _ => rfl
  others := fun pool notSource notTarget =>
    (two.others pool notSource notTarget).trans (one.others pool notSource notTarget)
  amount := by
    obtain ⟨moved, few, left, come⟩ := one.amount
    obtain ⟨more, fewMore, leftMore, comeMore⟩ := two.amount
    exact ⟨moved + more, by omega, by omega, by omega⟩

theorem Drawn.moved {next : Session cpus} {order addr : Nat} (sound : session.Sound)
    (differ : source ≠ target) (drawn : Drawn source order addr session next) :
    Returns (next.place target addr order) fun after => Moved source target (sizeOfOrder order) session after := by
  refine (place_rule drawn.shifted.sound drawn.aligned fun point => ?_).mono ?_
  · rw [drawn.shifted.weighs (covers_spread point)]
    exact sound.apart point
  rintro after ⟨placed, into⟩
  refine ⟨(drawn.shifted.trans placed).congr fun _ => by simp, ?_, sizeOfOrder order, le_refl _, ?_, ?_⟩
  · exact fun pool notSource notTarget => (into.others pool notTarget).trans (drawn.others pool notSource)
  · rw [into.others source differ]
    exact drawn.size
  · rw [into.size, drawn.others target differ.symm]

theorem balanceTo_moved (differ : source ≠ target) (order : Nat)
    {session : Session cpus} (sound : session.Sound) :
    Returns (balanceTo source target order session) fun after =>
      Moved source target (sizeOfOrder order) session after := by
  induction order generalizing session with
  | zero =>
    refine (allocChunk_rule sound source 0).bind ?_
    rintro ⟨next, result⟩ outcome
    cases result with
    | none => exact .of_refused outcome
    | some addr => exact Drawn.moved sound differ outcome
  | succ order ih =>
    refine (allocChunk_rule sound source (order + 1)).bind ?_
    rintro ⟨next, result⟩ outcome
    cases result with
    | some addr => exact Drawn.moved sound differ outcome
    | none =>
      refine meets_ite (fun _ => ?_) fun _ => .of_refused outcome
      have start : Moved source target 0 session next := .of_refused outcome
      refine (ih start.shifted.sound).bind fun mid first => ?_
      refine (ih first.shifted.sound).mono fun after second => ?_
      have all := start.trans (first.trans second)
      rwa [zero_add, ← sizeOfOrder_succ] at all

end Session

def Movable (cpus globalSize localSize : Nat) : Prop :=
  (cacheMaximalSize cpus globalSize ≤ localSize → localSize ≠ 0 →
      pageSize ≤ localSize - cacheExpectedSize cpus globalSize) ∧
    (localSize < cacheMinimalSize cpus globalSize → pageSize ≤ cacheExpectedSize cpus globalSize - localSize)

/-- With whole pages in the pools, too little is moved exactly when the local pool has one page and should
have up to half a page, or when it has nothing and should have less than a page. -/
theorem movable_iff {cpus globalSize localSize : Nat} (pages : pageSize ∣ localSize) :
    Movable cpus globalSize localSize ↔
      ¬(localSize = pageSize ∧ 0 < cacheExpectedSize cpus globalSize ∧
          2 * cacheExpectedSize cpus globalSize ≤ pageSize) ∧
        ¬(localSize = 0 ∧ 8 ≤ cacheExpectedSize cpus globalSize ∧
          cacheExpectedSize cpus globalSize < pageSize) := by
  obtain ⟨number, rfl⟩ := pages
  unfold Movable cacheMaximalSize cacheMinimalSize
  generalize cacheExpectedSize cpus globalSize = expected
  unfold pageSize
  omega

variable {globalPoolSize : Nat} {cpu : Fin cpus} {session : Session cpus}

theorem balance_moved (sound : session.Sound) :
    Settles (Movable cpus (session.getGlobalSize globalPoolSize) (session.sets (.ofCpu cpu)).totalSize)
      (balance globalPoolSize cpu session) fun after =>
      after = session ∨
        (let expected := cacheExpectedSize cpus (session.getGlobalSize globalPoolSize)
        let localSize := (session.sets (.ofCpu cpu)).totalSize
        (expected ≤ localSize ∧ Session.Moved (.ofCpu cpu) .global (localSize - expected) session after) ∨
          (localSize ≤ expected ∧ Session.Moved .global (.ofCpu cpu) (expected - localSize) session after)) := by
  have widen {source target : PoolId cpus} {limit larger : Nat} {after : Session cpus} (le : limit ≤ larger)
      (moved : Session.Moved source target limit session after) :
      Session.Moved source target larger session after := by
    obtain ⟨amount, few, sizes⟩ := moved.amount
    exact ⟨moved.shifted, moved.others, amount, few.trans le, sizes⟩
  have minimal := Nat.div_le_self (cacheExpectedSize cpus (session.getGlobalSize globalPoolSize)) 8
  unfold balance Movable
  simp only [cacheMaximalSize, cacheMinimalSize]
  refine meets_ite (fun plenty => meets_ite (fun empty => ⟨⟨?_, ?_⟩, .inl rfl⟩) fun filled => ?_) fun few =>
    meets_ite (fun little => meets_ite (fun empty => ?_) fun _ => ?_) fun enough =>
      ⟨⟨fun plenty => absurd plenty few, fun little => absurd little enough⟩, .inl rfl⟩
  · exact fun _ filled => absurd empty filled
  · omega
  · rw [sub_ok (by omega), bind_ok]
    refine ((lesserOrderOf_rule _).weaken fun _ short movable => short (movable.1 plenty filled)).bind ?_
    rintro order ⟨page, bound, _⟩
    refine ((Session.balanceTo_moved (by simp) order sound).weaken fun _ => False.elim).mono fun after moved => ?_
    exact ⟨⟨fun _ _ => page, by omega⟩, .inr (.inl ⟨by omega, widen bound moved⟩)⟩
  · simp [empty, cacheExpectedSize] at little
  · rw [sub_ok (by omega), bind_ok]
    refine ((lesserOrderOf_rule _).weaken fun _ short movable => short (movable.2 little)).bind ?_
    rintro order ⟨page, bound, _⟩
    refine ((Session.balanceTo_moved (by simp) order sound).weaken fun _ => False.elim).mono fun after moved => ?_
    exact ⟨⟨fun plenty => absurd plenty few, fun _ => page⟩, .inr (.inr ⟨by omega, widen bound moved⟩)⟩

theorem balance_rule (sound : session.Sound) :
    Settles (Movable cpus (session.getGlobalSize globalPoolSize) (session.sets (.ofCpu cpu)).totalSize)
      (balance globalPoolSize cpu session) fun after => Session.Shifted session after (fun _ => 0) fun _ => 0 := by
  refine (balance_moved sound).mono .rfl ?_
  rintro after - (rfl | ⟨_, moved⟩ | ⟨_, moved⟩)
  · exact .refl sound
  · exact moved.shifted
  · exact moved.shifted

end Kei.FrameAllocator
