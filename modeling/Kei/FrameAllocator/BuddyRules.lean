import Kei.FrameAllocator.Placed

/-! What inserting into and allocating from a buddy set do. Each rule holds for every weight
that a chunk shares between its halves, so it tells at once which addresses the set covers
and how many bytes it has. -/

namespace Kei.FrameAllocator

open Library Checked Shelves Function Nat

variable {maxOrder order : Nat} {slots : Slots} {lists : Nat → List Nat} {chunk : Nat}

/-- Going over from one arrangement of chunks to another moves no address in or out, and only slots of
addresses that are covered change. -/
structure Rearranged (maxOrder : Nat) (slots : Slots) (lists : Nat → List Nat) (slotsAfter : Slots)
    (listsAfter : Nat → List Nat) : Prop where
  total : ∀ {weight}, Additive weight →
    total weight listsAfter maxOrder = total weight lists maxOrder
  frame : ∀ {point}, covering maxOrder lists point = 0 → slotsAfter point = slots point

theorem Rearranged.refl : Rearranged maxOrder slots lists slots lists := ⟨fun _ => rfl, fun _ => rfl⟩

theorem Rearranged.covering {slotsAfter : Slots} {listsAfter : Nat → List Nat}
    (rearranged : Rearranged maxOrder slots lists slotsAfter listsAfter) (point : Nat) :
    FrameAllocator.covering maxOrder listsAfter point = FrameAllocator.covering maxOrder lists point :=
  rearranged.total (holds_additive point)

theorem Rearranged.trans {slotsMid slotsAfter : Slots} {listsMid listsAfter : Nat → List Nat}
    (first : Rearranged maxOrder slots lists slotsMid listsMid)
    (second : Rearranged maxOrder slotsMid listsMid slotsAfter listsAfter) :
    Rearranged maxOrder slots lists slotsAfter listsAfter where
  total := fun additive => (second.total additive).trans (first.total additive)
  frame := fun uncovered => by
    rw [second.frame (by rw [first.covering, uncovered]), first.frame uncovered]

theorem Coalesced.push (coalesced : Coalesced maxOrder lists)
    (alone : order + 1 < maxOrder → chunk ^^^ sizeOfOrder order ∉ lists order) :
    Coalesced maxOrder (push lists order chunk) := by
  have moves : ∀ order addr, addr ^^^ sizeOfOrder order ≠ addr := by
    intro order addr same
    have cancelled : addr ^^^ (addr ^^^ sizeOfOrder order) = 0 := by rw [same, Nat.xor_self]
    rw [← Nat.xor_assoc, Nat.xor_self, Nat.zero_xor] at cancelled
    exact absurd cancelled (sizeOfOrder_pos order).ne'
  intro index addr bound member buddy
  rcases mem_push.mp member with ⟨rfl, rfl⟩ | listed
  · rcases mem_push.mp buddy with ⟨_, same⟩ | listed
    · exact moves _ _ same
    · exact alone bound listed
  · rcases mem_push.mp buddy with ⟨rfl, same⟩ | both
    · refine alone bound ?_
      rwa [← same, Nat.xor_assoc, Nat.xor_self, Nat.xor_zero]
    · exact coalesced index addr bound listed both

theorem Coalesced.sub {fewer : Nat → List Nat} (coalesced : Coalesced maxOrder lists)
    (subset : ∀ index, fewer index ⊆ lists index) : Coalesced maxOrder fewer :=
  fun index addr bound member buddy => coalesced index addr bound (subset index member) (subset index buddy)

theorem take_subset (lists : Nat → List Nat) (order item index : Nat) :
    take lists order item index ⊆ lists index := by
  unfold take
  by_cases here : index = order
  · subst here
    rw [update_self]
    exact List.erase_subset
  · rw [update_of_ne here]
    exact List.Subset.refl _

theorem order_ok {slots : Slots} {chunk order : Nat} (marked : slots chunk = some order) :
    FreeChunk.order slots chunk = .ok order := by
  simp [FreeChunk.order, unwrap, marked]

theorem sizeOfOrder_buddies (aligned : sizeOfOrder order ∣ chunk) :
    ∃ low, sizeOfOrder (order + 1) ∣ low ∧
      (chunk = low ∧ chunk ^^^ sizeOfOrder order = low + sizeOfOrder order ∨
        chunk = low + sizeOfOrder order ∧ chunk ^^^ sizeOfOrder order = low) := by
  rw [sizeOfOrder_eq_two_pow] at aligned
  have parent := Dyadic.exists_parent aligned
  simp only [sizeOfOrder_eq_two_pow]
  rwa [show order + 1 + 12 = order + 12 + 1 by omega]

theorem xor_lower_half {low : Nat} (aligned : sizeOfOrder (order + 1) ∣ low) :
    low ^^^ sizeOfOrder order = low + sizeOfOrder order := by
  rw [sizeOfOrder_eq_two_pow] at aligned ⊢
  exact Dyadic.xor_lower (by rwa [show order + 12 + 1 = order + 1 + 12 by omega])

theorem mergeFree_ok {low other : Nat}
    (halves : chunk = low ∧ other = low + sizeOfOrder order ∨ chunk = low + sizeOfOrder order ∧ other = low)
    (aligned : sizeOfOrder (order + 1) ∣ low) (marked : slots chunk = some order)
    (otherMarked : slots other = some order) :
    FreeChunk.mergeFree slots chunk other =
      .ok (update (slots.resetAsUnused (low + sizeOfOrder order)) low (some (order + 1)), low) := by
  have positive := sizeOfOrder_pos order
  unfold FreeChunk.mergeFree
  rcases halves with ⟨rfl, rfl⟩ | ⟨rfl, rfl⟩ <;>
    simp [positive, order_ok marked, order_ok otherMarked, bind_ok, assert, xor_lower_half aligned, pure_eq_ok]

theorem splitFree_ok (marked : slots chunk = some (order + 1)) (aligned : sizeOfOrder (order + 1) ∣ chunk)
    (unused : slots (chunk + sizeOfOrder order) = none) :
    FreeChunk.splitFree slots chunk =
      .ok (update (update slots chunk (some order)) (chunk + sizeOfOrder order) (some order),
        chunk, chunk + sizeOfOrder order) := by
  have different : chunk + sizeOfOrder order ≠ chunk := by
    have := sizeOfOrder_pos order
    omega
  unfold FreeChunk.splitFree
  rw [order_ok marked, bind_ok, sub_ok (by omega), bind_ok, Nat.add_sub_cancel, xor_lower_half aligned]
  simp [Slots.claim, update_of_ne different, unused, bind_ok, pure_eq_ok]

namespace BuddySet

/-- The chunk in hand climbs from order to order. It stops where its buddy is not listed, so the set it is
then put into is coalesced. -/
theorem coalesce_rule {left : Nat} (turns : order + left = maxOrder) (bound : order < maxOrder)
    (placed : Placed maxOrder slots (push lists order chunk)) (coalesced : Coalesced maxOrder lists) :
    Returns (coalesce maxOrder left order slots lists chunk) fun (slotsAfter, listsAfter, chunkAfter) =>
      ∃ final, final < maxOrder ∧ slotsAfter chunkAfter = some final ∧
        Placed maxOrder slotsAfter (push listsAfter final chunkAfter) ∧
        Coalesced maxOrder (push listsAfter final chunkAfter) ∧
        Rearranged maxOrder slots (push lists order chunk) slotsAfter
          (push listsAfter final chunkAfter) := by
  induction left generalizing order slots lists chunk with
  | zero => omega
  | succ left ih =>
    have marked := placed.inHand_tagged bound
    have stops : (order + 1 < maxOrder → chunk ^^^ sizeOfOrder order ∉ lists order) →
        ∃ final, final < maxOrder ∧ slots chunk = some final ∧
          Placed maxOrder slots (push lists final chunk) ∧
          Coalesced maxOrder (push lists final chunk) ∧
          Rearranged maxOrder slots (push lists order chunk) slots (push lists final chunk) :=
      fun alone => ⟨order, bound, marked, placed, coalesced.push alone, .refl⟩
    unfold coalesce
    refine meets_ite (fun top => stops (by omega)) fun below => ?_
    have below : order + 1 < maxOrder := by omega
    simp only [FreeChunk.buddy, order_ok marked, bind_ok, pure_eq_ok]
    refine meets_ite (fun listed => ?_) fun absent => stops fun _ => absent
    obtain ⟨low, aligned, halves⟩ := sizeOfOrder_buddies (placed.inHand_aligned bound)
    have buddyMarked := placed.tagged bound (mem_push.mpr (Or.inr listed))
    rw [mergeFree_ok halves aligned marked buddyMarked, bind_ok]
    have merged := placed.merge below listed halves aligned
    refine (ih (by omega) below merged (coalesced.sub (take_subset lists _ _))).mono ?_
    rintro ⟨slotsAfter, listsAfter, chunkAfter⟩ ⟨final, finalBound, finalMarked, finalPlaced,
      finalCoalesced, moved⟩
    refine ⟨final, finalBound, finalMarked, finalPlaced, finalCoalesced, Rearranged.trans ⟨?_, ?_⟩ moved⟩
    · exact fun additive => total_merge additive below listed halves
    · intro point uncovered
      have outside : holds point (order + 1) low = 0 := by
        have same := total_merge (holds_additive point) below listed halves
        rw [total_push below] at same
        unfold covering at uncovered
        omega
      have := sizeOfOrder_pos order
      have := sizeOfOrder_succ order
      have apart : ¬(low ≤ point ∧ point < low + sizeOfOrder (order + 1)) := by
        intro inside
        rw [holds_eq_one.mpr inside] at outside
        omega
      rw [update_of_ne (by omega), Slots.resetAsUnused, update_of_ne (by omega)]

theorem splitDown_rule {halvings : Nat} (bound : order + halvings < maxOrder)
    (placed : Placed maxOrder slots (push lists (order + halvings) chunk))
    (coalesced : Coalesced maxOrder lists) :
    Returns (splitDown order halvings slots lists chunk) fun (slotsAfter, listsAfter, chunkAfter) =>
      chunkAfter = chunk ∧ Placed maxOrder slotsAfter (push listsAfter order chunk) ∧
        Coalesced maxOrder listsAfter ∧
        Rearranged maxOrder slots (push lists (order + halvings) chunk) slotsAfter
          (push listsAfter order chunk) := by
  induction halvings generalizing slots lists with
  | zero => exact ⟨rfl, placed, coalesced, .refl⟩
  | succ halvings ih =>
    have bound' : order + halvings + 1 < maxOrder := bound
    have placed' : Placed maxOrder slots (push lists (order + halvings + 1) chunk) := placed
    have aligned := placed'.inHand_aligned bound'
    have positive := sizeOfOrder_pos (order + halvings)
    have double := sizeOfOrder_succ (order + halvings)
    have unused : slots (chunk + sizeOfOrder (order + halvings)) = none :=
      placed'.tail_unused bound' (by omega) (by omega)
    unfold splitDown
    rw [splitFree_ok (placed'.inHand_tagged bound') aligned unused, bind_ok]
    dsimp only
    rw [order_ok (update_self ..), bind_ok]
    simp only [assert, beq_self_eq_true, if_true, bind_ok]
    have alone : (chunk + sizeOfOrder (order + halvings)) ^^^ sizeOfOrder (order + halvings) ∉
        lists (order + halvings) := by
      rw [← xor_lower_half aligned, Nat.xor_assoc, Nat.xor_self, Nat.xor_zero]
      intro listed
      exact placed'.outside bound' (by omega) listed ⟨le_rfl, by omega⟩
    refine (ih (by omega) (placed'.split bound') (coalesced.push fun _ => alone)).mono ?_
    rintro ⟨slotsAfter, listsAfter, chunkAfter⟩ ⟨same, finalPlaced, finalCoalesced, moved⟩
    refine ⟨same, finalPlaced, finalCoalesced, Rearranged.trans ⟨?_, ?_⟩ moved⟩
    · exact fun additive => total_split additive bound'
    · intro point uncovered
      have outside : ¬(chunk ≤ point ∧ point < chunk + sizeOfOrder (order + halvings + 1)) := by
        intro inside
        rw [← add_assoc, covering_push bound', holds_eq_one.mpr inside] at uncovered
        omega
      rw [update_of_ne (by omega), update_of_ne (by omega)]

def weigh (set : BuddySet maxOrder) (weight : Nat → Nat → Nat) : Nat := total weight set.lists maxOrder

structure Sound (slots : Slots) (set : BuddySet maxOrder) : Prop where
  placed : Placed maxOrder slots set.lists
  coalesced : Coalesced maxOrder set.lists
  counted : set.totalSize = set.weigh fun order _ => sizeOfOrder order

theorem newEmpty_sound (slots : Slots) : Sound slots (newEmpty maxOrder) where
  placed := Placed.empty slots
  coalesced := fun _ _ _ member => absurd member List.not_mem_nil
  counted := by simp [newEmpty, weigh, total]

theorem fromUnused_ok {addr : Nat} (aligned : sizeOfOrder order ∣ addr)
    (unused : ∀ point, holds point order addr = 1 → slots point = none) :
    FreeChunk.fromUnused slots addr order = .ok (update slots addr (some order)) := by
  have tails : (List.range (2 ^ order - 1)).all (fun index =>
      (update slots addr (some order) (addr + pageSize * (index + 1))).isNone) = true := by
    rw [List.all_eq_true]
    intro index member
    have range := List.mem_range.mp member
    have page : 0 < pageSize := by decide
    have inside : pageSize * (index + 1) < sizeOfOrder order := by
      unfold sizeOfOrder
      rw [mul_comm]
      exact mul_lt_mul_of_pos_right (by omega) page
    have positive : 0 < pageSize * (index + 1) := mul_pos page (by omega)
    rw [update_of_ne (by omega), unused _ (holds_eq_one.mpr ⟨by omega, by omega⟩)]
    rfl
  have divides : (addr % sizeOfOrder order == 0) = true := by simpa using mod_eq_zero_of_dvd aligned
  unfold FreeChunk.fromUnused
  simp only [assert, divides, if_true, bind_ok, Slots.claim, unused addr (holds_head order addr), tails, pure_eq_ok]

structure Inserted (slots : Slots) (set : BuddySet maxOrder) (order addr : Nat) (slotsAfter : Slots)
    (setAfter : BuddySet maxOrder) : Prop where
  sound : setAfter.Sound slotsAfter
  weighs : ∀ {weight}, Additive weight → setAfter.weigh weight = set.weigh weight + weight order addr
  frame : ∀ {point}, setAfter.weigh (holds point) = 0 → slotsAfter point = slots point

variable {set : BuddySet maxOrder}

theorem insertChunk_rule {addr : Nat} (sound : set.Sound slots) (bound : order < maxOrder)
    (aligned : sizeOfOrder order ∣ addr)
    (free : ∀ point, holds point order addr = 1 → set.weigh (holds point) = 0 ∧ slots point = none) :
    Returns (insertChunk slots set addr order) fun (slotsAfter, setAfter) =>
      Inserted slots set order addr slotsAfter setAfter := by
  unfold insertChunk
  simp only [assert, bound, decide_true, if_true, bind_ok, fromUnused_ok aligned fun point inside =>
    (free point inside).2]
  refine (coalesce_rule (by omega) bound (sound.placed.claim bound aligned free) sound.coalesced).bind ?_
  rintro ⟨slotsAfter, listsAfter, chunkAfter⟩ ⟨final, finalBound, marked, placed, coalesced, moved⟩
  dsimp only
  rw [order_ok marked, bind_ok]
  have weighs : ∀ {weight}, Additive weight →
      total weight (push listsAfter final chunkAfter) maxOrder =
        total weight set.lists maxOrder + weight order addr := by
    intro weight additive
    rw [moved.total additive, total_push bound]
  show Inserted slots set order addr slotsAfter ⟨_, push listsAfter final chunkAfter⟩
  refine ⟨⟨placed, coalesced, ?_⟩, weighs, ?_⟩
  · rw [weigh, weighs size_additive, sound.counted]
    rfl
  · intro point uncovered
    have before : covering maxOrder (push set.lists order addr) point = 0 := by
      rw [← moved.covering]
      exact uncovered
    rw [moved.frame before]
    refine update_of_ne ?_ _ _
    rintro rfl
    rw [covering_push bound, holds_head] at before
    omega

theorem firstNonEmpty_eq_find (left index : Nat) :
    firstNonEmpty lists left index = (List.range' index left).find? fun other => !(lists other).isEmpty := by
  induction left generalizing index with
  | zero => rfl
  | succ left ih =>
    rw [firstNonEmpty, List.range'_succ, List.find?_cons, ih]
    cases (lists index).isEmpty <;> rfl

theorem firstNonEmpty_eq_none {left index : Nat} :
    firstNonEmpty lists left index = none ↔ ∀ other, index ≤ other → other < index + left →
      lists other = [] := by
  simp [firstNonEmpty_eq_find]

theorem firstNonEmpty_eq_some {left index found : Nat} (first : firstNonEmpty lists left index = some found) :
    index ≤ found ∧ found < index + left ∧ lists found ≠ [] ∧
      ∀ other, index ≤ other → other < found → lists other = [] := by
  rw [firstNonEmpty_eq_find, List.find?_range'_eq_some, List.mem_range'_1] at first
  obtain ⟨filled, ⟨lower, upper⟩, earlier⟩ := first
  exact ⟨lower, upper, by simpa using filled, by simpa using earlier⟩

structure Taken (slots : Slots) (set : BuddySet maxOrder) (order : Nat) (slotsAfter : Slots)
    (setAfter : BuddySet maxOrder) (addr : Nat) : Prop where
  sound : setAfter.Sound slotsAfter
  aligned : sizeOfOrder order ∣ addr
  weighs : ∀ {weight}, Additive weight → setAfter.weigh weight + weight order addr = set.weigh weight
  frame : ∀ {point}, set.weigh (holds point) = 0 → slotsAfter point = slots point
  unused : ∀ {point}, holds point order addr = 1 → slotsAfter point = none
  smallest : ∃ source, order ≤ source ∧ source < maxOrder ∧ addr ∈ set.lists source ∧
    ∀ other, order ≤ other → other < source → set.lists other = []

theorem allocChunk_rule (sound : set.Sound slots) (order : Nat) :
    Returns (allocChunk slots set order) fun (slotsAfter, setAfter, result) =>
      match result with
      | none => slotsAfter = slots ∧ setAfter = set ∧ ∀ other, order ≤ other → other < maxOrder →
        set.lists other = []
      | some addr => Taken slots set order slotsAfter setAfter addr := by
  unfold allocChunk
  cases first : firstNonEmpty set.lists (maxOrder - order) order with
  | none =>
    refine ⟨rfl, rfl, fun other lower upper => ?_⟩
    exact firstNonEmpty_eq_none.mp first other lower (by omega)
  | some nonEmpty =>
    obtain ⟨lower, upper, filled, earlier⟩ := firstNonEmpty_eq_some first
    have bound : nonEmpty < maxOrder := by omega
    obtain ⟨head, rest, front⟩ := List.exists_cons_of_ne_nil filled
    have back := push_pop front
    have member : head ∈ set.lists nonEmpty := by rw [front]; exact List.mem_cons_self
    have placed : Placed maxOrder slots (push (update set.lists nonEmpty rest) nonEmpty head) := by
      rw [back]
      exact sound.placed
    have coalesced : Coalesced maxOrder (update set.lists nonEmpty rest) := by
      refine sound.coalesced.sub fun index => ?_
      by_cases here : index = nonEmpty
      · subst here
        rw [update_self, front]
        exact List.subset_cons_self _ _
      · rw [update_of_ne here]
        exact List.Subset.refl _
    obtain ⟨halvings, rfl⟩ := Nat.exists_eq_add_of_le lower
    simp only [front, List.head?_cons, unwrap, List.tail_cons, bind_ok,
      order_ok (placed.inHand_tagged bound), assert, beq_self_eq_true, if_true, Nat.add_sub_cancel_left]
    refine (splitDown_rule bound placed coalesced).bind ?_
    rintro ⟨slotsAfter, listsAfter, chunk⟩ ⟨rfl, finalPlaced, finalCoalesced, moved⟩
    have orderBound : order < maxOrder := by omega
    have weighs : ∀ {weight}, Additive weight →
        total weight listsAfter maxOrder + weight order chunk = set.weigh weight := by
      intro weight additive
      rw [← total_push orderBound, moved.total additive, back]
      rfl
    have enough : sizeOfOrder order ≤ set.totalSize := by
      rw [sound.counted, ← weighs size_additive]
      exact le_add_left _ _
    dsimp only
    rw [sub_ok enough, bind_ok]
    show Taken slots set order (slotsAfter.resetAsUnused chunk) ⟨_, listsAfter⟩ chunk
    refine ⟨⟨finalPlaced.release orderBound, finalCoalesced, ?_⟩, finalPlaced.inHand_aligned orderBound, weighs,
      ?_, ?_, ⟨order + halvings, lower, bound, member, earlier⟩⟩
    · rw [sound.counted, ← weighs size_additive, Nat.add_sub_cancel]
      rfl
    · intro point uncovered
      have before : covering maxOrder set.lists point = 0 := uncovered
      have different : point ≠ chunk := by
        rintro rfl
        have := covering_pos bound member
        omega
      rw [Slots.resetAsUnused, update_of_ne different]
      exact moved.frame (by rw [back]; exact before)
    · intro point inside
      obtain ⟨lowerEnd, upperEnd⟩ := holds_eq_one.mp inside
      unfold Slots.resetAsUnused
      by_cases head : point = chunk
      · rw [head, update_self]
      · rw [update_of_ne head]
        exact finalPlaced.tail_unused orderBound (by omega) upperEnd

end BuddySet

end Kei.FrameAllocator
