import Kei.Virtio.Queue
import Kei.Library.Links
import Kei.Library.Settles
import Mathlib.Algebra.BigOperators.Group.List.Basic

/-! What the loops of the queue do to its links: an add cuts a piece from the front of the free
list, and a recycled chain is joined to it. -/

namespace Kei.Virtio

open Library Checked List Function Nat

def field (select : DescriptorSlot → Option Nat) (descs : List DescriptorSlot) (position : Nat) : Option Nat :=
  descs[position]?.bind select

abbrev links : List DescriptorSlot → Nat → Option Nat := field (·.next)

abbrev lens : List DescriptorSlot → Nat → Option Nat := field (·.len)

variable {descs : List DescriptorSlot} {position : Nat} {slot : DescriptorSlot}

theorem field_set (select : DescriptorSlot → Option Nat) (bound : position < descs.length) (slot : DescriptorSlot) :
    field select (descs.set position slot) = update (field select descs) position (select slot) := by
  funext other
  by_cases same : other = position
  · subst same
    rw [update_self, field, List.getElem?_set_self bound]
    rfl
  · rw [update_of_ne same, field, List.getElem?_set_ne (Ne.symm same)]
    rfl

theorem field_set_same {select : DescriptorSlot → Option Nat} {other : DescriptorSlot}
    (found : descs[position]? = some slot) (same : select other = select slot) :
    field select (descs.set position other) = field select descs := by
  obtain ⟨bound, _⟩ := List.getElem?_eq_some_iff.mp found
  have own : field select descs position = select other := by
    rw [field, found, same]
    rfl
  rw [field_set select bound, ← own, update_eq_self]

def DmaBuf.Fits (buf : DmaBuf) : Prop := 0 < buf.len ∧ buf.len < 2 ^ 32 - 1

variable {table : List Descriptor} {buf : DmaBuf} {bufs : List DmaBuf} {flags : BitVec 16} {offer after : Offer}

theorem store_ok {α : Type} {values : List α} (bound : position < values.length) (value : α) :
    Checked.store values position value = .ok (values.set position value) := by
  rw [Checked.store, if_pos bound]

theorem amend_ok (bound : position < table.length) (change : Descriptor → Descriptor) :
    ∃ next, amend table position change = .ok next ∧ next.length = table.length := by
  rw [amend, index_getElem? (List.getElem?_eq_getElem bound), bind_ok, store_ok bound]
  exact ⟨_, rfl, length_set⟩

theorem setNext_ok (bound : position < table.length) (next : Option Nat) :
    ∃ after, setNext table position next = .ok after ∧ after.length = table.length := by
  cases next with
  | none => exact ⟨table, rfl, rfl⟩
  | some next => exact amend_ok bound _

theorem setDmaBuf_settles (bound : position < table.length) :
    Settles buf.Fits (setDmaBuf table position buf) fun result =>
      result.1 = buf.len ∧ result.2.length = table.length := by
  obtain ⟨next, ran, length⟩ := amend_ok bound
    (fun desc => { desc with addr := buf.daddr, len := BitVec.ofNat 32 buf.len })
  have stored : setDmaBuf table position buf = (do
      assert (buf.len < 2 ^ 32 - 1)
      assert (buf.len != 0)
      pure (buf.len, next)) := by
    rw [setDmaBuf, ran]
    rfl
  rw [stored]
  refine ((assert_settles _).bind _ fun _ _ _ => (assert_settles _).map fun _ _ _ => ⟨rfl, length⟩).congr ?_
  rw [decide_eq_true_iff, bne_iff_ne, ← Nat.pos_iff_ne_zero]
  exact and_comm

namespace Offer

structure Advanced (descs : List DescriptorSlot) (offer after : Offer) (nodes : List Nat) (count : Nat) : Prop where
  current : Linked (links descs) after.current (nodes.drop count)
  last : after.last = (nodes.take count).getLast?.or offer.last
  table : after.table.length = offer.table.length

variable {nodes : List Nat}

theorem Advanced.zero (linked : Linked (links descs) offer.current nodes) :
    Advanced descs offer offer nodes 0 :=
  ⟨linked, rfl, rfl⟩

theorem Advanced.cons {last : Offer} {node count : Nat} {nodes : List Nat}
    (first : Advanced descs offer after (node :: nodes) 1)
    (rest : Advanced descs after last nodes count) : Advanced descs offer last (node :: nodes) (count + 1) := by
  refine ⟨rest.current, ?_, rest.table.trans first.table⟩
  have whole : ((node :: nodes).take (count + 1)).getLast? = some ((nodes.take count).getLast?.getD node) := by
    rw [take_succ_cons, List.getLast?_cons]
  rw [rest.last, first.last, whole]
  cases (nodes.take count).getLast? <;> rfl

theorem Advanced.append {last : Offer} {first second : Nat}
    (one : Advanced descs offer after nodes first)
    (two : Advanced descs after last (nodes.drop first) second) : Advanced descs offer last nodes (first + second) := by
  refine ⟨?_, ?_, two.table.trans one.table⟩
  · rw [← drop_drop]
    exact two.current
  · rw [two.last, one.last, take_add, List.getLast?_append]
    cases ((nodes.drop first).take second).getLast? <;> rfl

theorem next_settles {node : Nat} (linked : Linked (links descs) offer.current (node :: nodes))
    (bound : node < descs.length) (inside : node < offer.table.length) (flags : BitVec 16) :
    Settles buf.Fits (offer.next descs flags buf) fun result =>
      result.1 = buf.len ∧ Advanced descs offer result.2 (node :: nodes) 1 := by
  obtain ⟨start, rest⟩ := linked.of_cons
  have found := List.getElem?_eq_getElem bound
  have own : links descs node = descs[node].next := by
    rw [links, field, found]
    rfl
  rw [Offer.next, start, Checked.unwrap, bind_ok, index_getElem? found, bind_ok]
  refine (setDmaBuf_settles inside).returning ?_
  rintro ⟨len, one⟩ _ ⟨same, length⟩
  obtain ⟨two, flagged, kept⟩ := amend_ok (show node < one.length from length ▸ inside)
    (fun desc => { desc with flags := flags })
  obtain ⟨three, linkedTo, last⟩ :=
    setNext_ok (show node < two.length from kept ▸ length ▸ inside) descs[node].next
  refine ⟨(len, ⟨three, some node, descs[node].next⟩), ?_, same, own ▸ rest, rfl,
    last.trans (kept.trans length)⟩
  dsimp only
  rw [flagged, bind_ok, linkedTo]
  rfl

section

variable (linked : Linked (links descs) offer.current nodes) (enough : bufs.length ≤ nodes.length)
  (bound : ∀ node ∈ nodes, node < descs.length ∧ node < offer.table.length)
include linked enough bound

theorem inputs_settles : Settles (∀ buf ∈ bufs, buf.Fits) (offer.inputs descs bufs) fun after =>
    Advanced descs offer after nodes bufs.length := by
  induction bufs generalizing offer nodes with
  | nil => exact ⟨forall_mem_nil _, .zero linked⟩
  | cons buf bufs ih =>
    cases nodes with
    | nil => cases enough
    | cons node nodes =>
      obtain ⟨inside, later⟩ := forall_mem_cons.mp bound
      have turn : Settles buf.Fits (input descs offer buf) fun mid => Advanced descs offer mid (node :: nodes) 1 :=
        (next_settles linked inside.1 inside.2 _).map fun _ _ step => step.2
      rw [Offer.inputs, foldlM_cons, forall_mem_cons]
      refine turn.bind _ fun mid _ step => ?_
      refine (ih step.current (le_of_succ_le_succ enough) fun node member => ?_).mono Iff.rfl fun _ _ => step.cons
      exact ⟨(later node member).1, step.table ▸ (later node member).2⟩

theorem outputs_settles {outputLen : Nat} (start : outputLen < 2 ^ 32) :
    Settles ((∀ buf ∈ bufs, buf.Fits) ∧ outputLen + (bufs.map (·.len)).sum < 2 ^ 32)
      (outputs descs (outputLen, offer) bufs) fun result =>
        result.1 = outputLen + (bufs.map (·.len)).sum ∧ Advanced descs offer result.2 nodes bufs.length := by
  induction bufs generalizing offer nodes outputLen with
  | nil => exact ⟨⟨forall_mem_nil _, start⟩, rfl, .zero linked⟩
  | cons buf bufs ih =>
    cases nodes with
    | nil => cases enough
    | cons node nodes =>
      obtain ⟨inside, later⟩ := forall_mem_cons.mp bound
      have turn : Settles (buf.Fits ∧ outputLen + buf.len ≤ 2 ^ 32 - 1) (output descs (outputLen, offer) buf)
          fun state => state.1 = outputLen + buf.len ∧ Advanced descs offer state.2 (node :: nodes) 1 := by
        refine (next_settles linked inside.1 inside.2 _).bind _ ?_
        rintro ⟨len, mid⟩ _ ⟨rfl, step⟩
        exact (add_settles _ _ _).map fun _ _ sum => ⟨sum, step⟩
      rw [outputs, foldlM_cons, forall_mem_cons, map_cons, sum_cons, ← add_assoc]
      refine (turn.bind ((∀ buf ∈ bufs, buf.Fits) ∧ outputLen + buf.len + (bufs.map (·.len)).sum < 2 ^ 32)
        ?_).congr ?_
      · rintro ⟨total, mid⟩ ⟨_, small⟩ ⟨rfl, step⟩
        refine (ih step.current (le_of_succ_le_succ enough) (fun node member => ?_) (by omega)).mono Iff.rfl ?_
        · exact ⟨(later node member).1, step.table ▸ (later node member).2⟩
        · exact fun _ _ steps => ⟨steps.1, step.cons steps.2⟩
      · constructor
        · rintro ⟨⟨own, _⟩, others, small⟩
          exact ⟨⟨own, others⟩, small⟩
        · rintro ⟨⟨own, others⟩, small⟩
          exact ⟨⟨own, by omega⟩, others, small⟩

end

end Offer

namespace VirtQueue

variable {queue : VirtQueue} {turns head last : Nat}

structure Sized (queue : VirtQueue) : Prop where
  descs : queue.descs.length < 2 ^ 16
  table : queue.descs.length ≤ queue.shared.table.length
  device : ∃ exponent, queue.deviceQueueSize = 2 ^ exponent
  avail : queue.shared.availRing.length = queue.deviceQueueSize
  used : queue.shared.usedRing.length = queue.deviceQueueSize

theorem masked_lt {size : Nat} (power : ∃ exponent, size = 2 ^ exponent) (index : BitVec 16) :
    Checked.sub size 1 = .ok (size - 1) ∧ index.toNat &&& (size - 1) < size := by
  obtain ⟨exponent, rfl⟩ := power
  have positive := Nat.two_pow_pos exponent
  refine ⟨sub_ok positive, ?_⟩
  rw [and_two_pow_sub_one_eq_mod]
  exact mod_lt _ positive

structure Detached (queue after : VirtQueue) (head last count outputLen : Nat) : Prop where
  sized : after.Sized
  length : after.descs.length = queue.descs.length
  links : links after.descs = update (links queue.descs) last none
  lens : lens after.descs = update (lens queue.descs) head (some outputLen)
  freeHead : after.freeHead = Virtio.links queue.descs last
  numUsed : after.numUsed = queue.numUsed + count

theorem detach_ok (sized : queue.Sized) {table : List Descriptor} {count outputLen : Nat}
    (same : table.length = queue.shared.table.length) (front : head < queue.descs.length)
    (back : last < queue.descs.length) (room : queue.numUsed + count < 2 ^ 16) :
    ∃ after, queue.detach head last table count outputLen = .ok after ∧
      Detached queue after head last count outputLen := by
  have found := List.getElem?_eq_getElem back
  obtain ⟨flagged, amended, length⟩ := amend_ok
    (show last < table.length from same ▸ lt_of_lt_of_le back sized.table)
    (fun desc => { desc with flags := desc.flags &&& ~~~DescFlags.next })
  obtain ⟨cut, stored⟩ : ∃ cut, cut = queue.descs.set last { queue.descs[last] with next := none } := ⟨_, rfl⟩
  have size : cut.length = queue.descs.length := by rw [stored, length_set]
  have bound : head < cut.length := by omega
  have first := List.getElem?_eq_getElem bound
  refine ⟨{ queue with
    descs := cut.set head { cut[head] with len := some outputLen }
    freeHead := queue.descs[last].next
    numUsed := queue.numUsed + count
    shared := { queue.shared with table := flagged } }, ?_, ?_⟩
  · rw [detach, index_getElem? found, bind_ok, store_ok back, bind_ok, amended, bind_ok, add_ok (by omega), bind_ok,
      ← stored, index_getElem? first, bind_ok, store_ok bound]
    rfl
  · have linked : Virtio.links cut = update (Virtio.links queue.descs) last none := by
      rw [stored]
      exact field_set _ back _
    have kept : Virtio.lens cut = Virtio.lens queue.descs := by
      rw [stored]
      exact field_set_same found rfl
    refine ⟨⟨?_, ?_, sized.device, sized.avail, sized.used⟩, ?_, ?_, ?_, ?_, rfl⟩
    · dsimp only
      rw [length_set, size]
      exact sized.descs
    · dsimp only
      rw [length_set, size, length, same]
      exact sized.table
    · dsimp only
      rw [length_set, size]
    · refine Eq.trans (field_set_same first ?_) linked
      rfl
    · refine Eq.trans (field_set _ bound _) ?_
      rw [← kept]
    · rw [Virtio.links, field, found]
      rfl

theorem offerHead_ok (sized : queue.Sized) (head : Nat) :
    ∃ after, queue.offerHead head = .ok after ∧ after.Sized ∧ after.descs = queue.descs ∧
      after.freeHead = queue.freeHead ∧ after.numUsed = queue.numUsed := by
  obtain ⟨mask, slot⟩ := masked_lt sized.device queue.availIdx
  have ran : queue.offerHead head = .ok { queue with
      availIdx := queue.availIdx + 1
      shared := { queue.shared with
        availRing := queue.shared.availRing.set (queue.availIdx.toNat &&& (queue.deviceQueueSize - 1)) head
        availIdx := queue.availIdx + 1 } } := by
    rw [offerHead, mask, bind_ok, store_ok (sized.avail.symm ▸ slot)]
    rfl
  exact ⟨_, ran, { sized with avail := length_set.trans sized.avail }, rfl, rfl, rfl⟩

structure Recycled (queue after : VirtQueue) (last count : Nat) (origin : Option Nat) : Prop where
  sized : after.Sized
  length : after.descs.length = queue.descs.length
  links : links after.descs = update (links queue.descs) last origin
  lens : lens after.descs = lens queue.descs
  freeHead : after.freeHead = queue.freeHead
  numUsed : after.numUsed = queue.numUsed - count

theorem recycle_turn (origin : Option Nat) (sized : queue.Sized) (bound : head < queue.descs.length)
    (used : 0 < queue.numUsed) :
    ∃ mid : VirtQueue, mid.Sized ∧ mid.descs = queue.descs ∧ mid.freeHead = queue.freeHead ∧
      mid.numUsed = queue.numUsed - 1 ∧
      (∀ next, queue.descs[head].next = some next →
        recycle origin (turns + 1) queue head = recycle origin turns mid next) ∧
      (queue.descs[head].next = none → recycle origin (turns + 1) queue head =
        .ok { mid with descs := mid.descs.set head { queue.descs[head] with next := origin } }) := by
  have found := List.getElem?_eq_getElem bound
  obtain ⟨table, amended, length⟩ := amend_ok (lt_of_lt_of_le bound sized.table)
    (fun desc => { desc with addr := 0, len := 0 })
  refine ⟨{ queue with numUsed := queue.numUsed - 1, shared := { queue.shared with table := table } },
    { sized with table := length.symm ▸ sized.table }, rfl, rfl, rfl, ?_, ?_⟩
  · intro next follows
    rw [recycle, index_getElem? found, bind_ok, amended, bind_ok, sub_ok used, bind_ok, follows]
  · intro ends
    rw [recycle, index_getElem? found, bind_ok, amended, bind_ok, sub_ok used, bind_ok, ends]
    dsimp only
    rw [store_ok bound]
    rfl

theorem recycle_meets {origin : Option Nat} {front : List Nat} (sized : queue.Sized)
    (linked : Linked (links queue.descs) (some head) (front ++ [last]))
    (bound : ∀ node ∈ front ++ [last], node < queue.descs.length) (enough : front.length < queue.numUsed) :
    Meets (fun panic => panic = .hang ∧ turns ≤ front.length) (recycle origin turns queue head) fun after =>
      Recycled queue after last (front.length + 1) origin := by
  induction front generalizing queue head turns with
  | nil =>
    cases turns with
    | zero => exact ⟨rfl, le_refl _⟩
    | succ turns =>
      obtain ⟨same, rest⟩ := linked.of_cons
      obtain rfl := Option.some.inj same
      have inside := bound head (mem_singleton_self _)
      obtain ⟨mid, kept, slots, freeHead, numUsed, _, ran⟩ :=
        @recycle_turn queue turns head origin sized inside (by omega)
      have found := List.getElem?_eq_getElem inside
      have ends : queue.descs[head].next = none := by
        have none := rest.head?
        rwa [links, field, found] at none
      rw [ran ends, slots]
      refine ⟨⟨?_, ?_, kept.device, kept.avail, kept.used⟩, length_set, field_set _ inside _, ?_, freeHead,
        numUsed⟩
      · exact length_set.trans_lt sized.descs
      · have table := kept.table
        rw [slots] at table
        exact le_trans (le_of_eq length_set) table
      · refine field_set_same found ?_
        rfl
  | cons node front ih =>
    cases turns with
    | zero => exact ⟨rfl, zero_le _⟩
    | succ turns =>
      obtain ⟨same, rest⟩ := linked.of_cons
      obtain rfl := Option.some.inj same
      obtain ⟨inside, others⟩ := forall_mem_cons.mp bound
      rw [length_cons] at enough
      obtain ⟨mid, kept, slots, freeHead, numUsed, ran, _⟩ :=
        @recycle_turn queue turns head origin sized inside (by omega)
      have found := List.getElem?_eq_getElem inside
      have own : links queue.descs head = queue.descs[head].next := by
        rw [links, field, found]
        rfl
      obtain ⟨following, next⟩ : ∃ following, queue.descs[head].next = some following := by
        have start := rest.head?
        rw [own] at start
        exact ⟨_, start.trans (List.head?_eq_some_head (by simp))⟩
      rw [own, next, ← slots] at rest
      rw [ran following next]
      have later := @ih mid turns following kept rest (slots.symm ▸ others) (by omega)
      refine Meets.mono (later.weaken ?_) ?_
      · rintro panic ⟨rfl, short⟩
        exact ⟨rfl, succ_le_succ short⟩
      · intro after outcome
        refine ⟨outcome.sized, outcome.length.trans (by rw [slots]), ?_, ?_, ?_, ?_⟩
        · rw [outcome.links, slots]
        · rw [outcome.lens, slots]
        · rw [outcome.freeHead, freeHead]
        · rw [outcome.numUsed, numUsed, length_cons]
          omega

end VirtQueue

end Kei.Virtio
