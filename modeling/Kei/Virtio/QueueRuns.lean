import Kei.Virtio.QueueRules
import Mathlib.Data.List.Range

/-! A queue through any calls, with a device that writes what it likes to the shared memory: the
free list and the chains of the tokens in use always share out the descriptors. -/

namespace Kei.Virtio

open Library Checked List Function Nat

/-- A token that was handed out, and how many bytes the device may write to its buffers. -/
structure Ticket where
  token : Nat
  writable : Nat
  deriving DecidableEq, Repr

namespace VirtQueue

variable {queue after : VirtQueue} {outstanding : List Ticket} {free : List Nat} {chain : Nat → List Nat}
  {inputs outputs : List DmaBuf}

def inChains (outstanding : List Ticket) (chain : Nat → List Nat) : List Nat :=
  outstanding.flatMap fun ticket => chain ticket.token

/-- The links of the driver: every descriptor is in the free list or in the chain of one token. -/
structure Partition (queue : VirtQueue) (outstanding : List Ticket) (free : List Nat) (chain : Nat → List Nat) :
    Prop where
  freeList : Linked (links queue.descs) queue.freeHead free
  chains : ∀ ticket ∈ outstanding, Linked (links queue.descs) (some ticket.token) (chain ticket.token)
  covers : (free ++ inChains outstanding chain).Perm (List.range queue.descs.length)
  used : queue.numUsed = (inChains outstanding chain).length

structure Sound (queue : VirtQueue) (outstanding : List Ticket) : Prop where
  sized : queue.Sized
  partition : ∃ free chain, queue.Partition outstanding free chain
  tokens : (outstanding.map (·.token)).Nodup
  lens : ∀ position len, lens queue.descs position = some len ↔
    ∃ ticket ∈ outstanding, ticket.token = position ∧ ticket.writable = len

namespace Partition

theorem nodup (partition : queue.Partition outstanding free chain) : (free ++ inChains outstanding chain).Nodup :=
  partition.covers.nodup_iff.mpr nodup_range

variable {node : Nat}

section

variable (partition : queue.Partition outstanding free chain)
include partition

theorem lt (member : node ∈ free ++ inChains outstanding chain) : node < queue.descs.length :=
  mem_range.mp (partition.covers.mem_iff.mp member)

theorem length : free.length + queue.numUsed = queue.descs.length := by
  have sum := partition.covers.length_eq
  rwa [length_append, length_range, ← partition.used] at sum

theorem availableDesc : queue.availableDesc = .ok free.length := by
  have length := partition.length
  rw [VirtQueue.availableDesc, sub_ok (by omega)]
  congr 1
  omega

theorem apart (member : node ∈ free) : node ∉ inChains outstanding chain :=
  fun other => (disjoint_of_nodup_append partition.nodup) member other

end

theorem mem_inChains {ticket : Ticket} (member : ticket ∈ outstanding) (own : node ∈ chain ticket.token) :
    node ∈ inChains outstanding chain :=
  mem_flatMap.mpr ⟨ticket, member, own⟩

theorem token_mem (partition : queue.Partition outstanding free chain) {ticket : Ticket}
    (member : ticket ∈ outstanding) : ticket.token ∈ chain ticket.token := by
  have start := (partition.chains ticket member).head?
  exact mem_of_mem_head? start.symm

end Partition

theorem inChains_update {head : Nat} {nodes : List Nat} (fresh : ∀ ticket ∈ outstanding, ticket.token ≠ head) :
    inChains outstanding (update chain head nodes) = inChains outstanding chain := by
  refine flatMap_congr fun ticket member => ?_
  rw [update_of_ne (fresh ticket member)]

variable {head last count outputLen : Nat}

theorem Partition.detached {front back : List Nat}
    (partition : queue.Partition outstanding (front ++ last :: back) chain)
    (start : (front ++ [last]).head? = some head) (all : count = front.length + 1)
    (detached : Detached queue after head last count outputLen) :
    after.Partition (outstanding ++ [⟨head, outputLen⟩]) back (update chain head (front ++ [last])) := by
  have whole : front ++ last :: back = (front ++ [last]) ++ back := by simp
  have nodup := partition.nodup
  have first : head ∈ front ++ last :: back := by
    rw [whole]
    exact mem_append_left _ (mem_of_mem_head? start)
  have fresh : ∀ ticket ∈ outstanding, ticket.token ≠ head := by
    rintro ticket member rfl
    exact partition.apart first (Partition.mem_inChains member (partition.token_mem member))
  have single := (nodup_append.mp (nodup_append.mp nodup).1)
  have beforeLast : last ∉ front := fun member => single.2.2 last member last mem_cons_self rfl
  have afterLast : last ∉ back := (nodup_cons.mp single.2.1).1
  have used : last ∉ inChains outstanding chain :=
    partition.apart (mem_append_right _ mem_cons_self)
  have begins : queue.freeHead = some head := by
    rw [partition.freeList.head?, whole, List.head?_append, start]
    rfl
  have chains : inChains (outstanding ++ [⟨head, outputLen⟩]) (update chain head (front ++ [last])) =
      inChains outstanding chain ++ (front ++ [last]) := by
    rw [inChains, flatMap_append, ← inChains, inChains_update fresh]
    simp
  refine ⟨?_, ?_, ?_, ?_⟩
  · rw [detached.links, detached.freeHead]
    refine partition.freeList.drop.congr fun node member => update_of_ne ?_ _ _
    rintro rfl
    exact afterLast member
  · intro ticket member
    rw [detached.links]
    rcases mem_append.mp member with old | new
    · rw [update_of_ne (fresh ticket old)]
      refine (partition.chains ticket old).congr fun node own => update_of_ne ?_ _ _
      rintro rfl
      exact used (Partition.mem_inChains old own)
    · obtain rfl := mem_singleton.mp new
      rw [update_self, ← begins]
      exact partition.freeList.cut beforeLast
  · rw [chains, detached.length]
    refine List.Perm.trans ?_ partition.covers
    rw [whole, append_assoc (front ++ [last])]
    refine List.Perm.trans ?_ perm_append_comm
    rw [append_assoc]
  · rw [detached.numUsed, partition.used, chains, length_append, all]
    simp

variable {ticket : Ticket}

theorem perm_cons_filter (tokens : (outstanding.map (·.token)).Nodup)
    (member : ticket ∈ outstanding) :
    outstanding.Perm (ticket :: outstanding.filter (·.token ≠ ticket.token)) := by
  induction outstanding with
  | nil => cases member
  | cons first rest ih =>
    obtain ⟨fresh, others⟩ := nodup_cons.mp tokens
    rcases mem_cons.mp member with rfl | later
    · have kept : rest.filter (·.token ≠ ticket.token) = rest := by
        refine filter_eq_self.mpr fun other listed => decide_eq_true fun same => fresh ?_
        exact mem_map.mpr ⟨other, listed, same⟩
      rw [filter_cons_of_neg (by simp), kept]
    · have different : first.token ≠ ticket.token := fun same =>
        fresh (mem_map.mpr ⟨ticket, later, same.symm⟩)
      rw [filter_cons_of_pos (by simpa using different)]
      exact ((ih others later).cons first).trans (List.Perm.swap _ _ _)

theorem perm_free {rest : List Ticket} (free : List Nat) (chain : Nat → List Nat)
    (perm : outstanding.Perm (ticket :: rest)) :
    (free ++ inChains outstanding chain).Perm (chain ticket.token ++ free ++ inChains rest chain) := by
  have chains : (inChains outstanding chain).Perm (chain ticket.token ++ inChains rest chain) :=
    perm.flatMap_right _
  refine (chains.append_left free).trans ?_
  rw [← append_assoc]
  exact perm_append_comm.append_right _

theorem Partition.recycled {rest : List Ticket} {front : List Nat} {last : Nat}
    (partition : queue.Partition outstanding free chain) (perm : outstanding.Perm (ticket :: rest))
    (whole : chain ticket.token = front ++ [last])
    (recycled : Recycled { queue with freeHead := some ticket.token } after last (front.length + 1) queue.freeHead) :
    after.Partition rest (front ++ last :: free) chain := by
  have member : ticket ∈ outstanding := perm.mem_iff.mpr mem_cons_self
  have covers := perm_free free chain perm
  rw [whole] at covers
  have nodup := covers.nodup_iff.mp partition.nodup
  have apart := nodup_append.mp nodup
  have single := nodup_append.mp apart.1
  have own := nodup_append.mp single.1
  have mine : last ∈ front ++ [last] := mem_append_right _ (mem_singleton_self _)
  have unused : last ∉ free := fun other => single.2.2 last mine last other rfl
  have elsewhere : last ∉ inChains rest chain :=
    fun other => apart.2.2 last (mem_append_left _ mine) last other rfl
  refine ⟨?_, ?_, ?_, ?_⟩
  · rw [recycled.links, recycled.freeHead]
    have linked := partition.chains ticket member
    rw [whole] at linked
    refine linked.join partition.freeList (fun other => own.2.2 last other last ?_ rfl) unused
    exact mem_singleton_self _
  · intro other listed
    rw [recycled.links]
    refine (partition.chains other (perm.mem_iff.mpr (mem_cons_of_mem _ listed))).congr fun node belongs =>
      update_of_ne ?_ _ _
    rintro rfl
    exact elsewhere (mem_inChains listed belongs)
  · rw [recycled.length]
    refine List.Perm.trans (List.Perm.trans ?_ covers.symm) partition.covers
    rw [append_assoc front [last], singleton_append]
  · have sum := covers.length_eq
    rw [recycled.numUsed]
    dsimp only
    rw [partition.used]
    simp only [length_append, length_singleton] at sum
    omega

/-- The buffers that can be added: none is empty or as long as a `u32` can say, and the lengths of
the writable ones add up. -/
def Fits (inputs outputs : List DmaBuf) : Prop :=
  (∀ buf ∈ inputs ++ outputs, buf.Fits) ∧ (outputs.map (·.len)).sum < 2 ^ 32

theorem Partition.addDmaBufs_many (partition : queue.Partition outstanding free chain)
    (given : inputs ++ outputs ≠ []) (many : free.length < inputs.length + outputs.length) :
    queue.addDmaBufs inputs outputs = .ok (.error .bufferTooSmall, queue) := by
  have entered : (inputs.isEmpty && outputs.isEmpty) = false := by
    simpa using given
  rw [addDmaBufs, entered, partition.availableDesc]
  simp [bind_ok, many, pure_eq_ok]

theorem Partition.addDmaBufs_enter (partition : queue.Partition outstanding free chain)
    (given : inputs ++ outputs ≠ []) (enough : inputs.length + outputs.length ≤ free.length) :
    queue.addDmaBufs inputs outputs = (do
      let head ← Checked.unwrap queue.freeHead
      let offer ← Offer.inputs queue.descs ⟨queue.shared.table, queue.freeHead, queue.freeHead⟩ inputs
      let (outputLen, offer) ← Offer.outputs queue.descs (0, offer) outputs
      let last ← Checked.unwrap offer.last
      let queue ← queue.detach head last offer.table (inputs.length + outputs.length) outputLen
      let queue ← queue.offerHead head
      pure (.ok head, queue)) := by
  have entered : (inputs.isEmpty && outputs.isEmpty) = false := by
    simpa using given
  rw [addDmaBufs, entered, partition.availableDesc]
  simp only [Bool.false_eq_true, if_false, bind_ok, gt_iff_lt, not_lt.mpr enough]

theorem exists_cut {nodes : List Nat} {count : Nat} (positive : 0 < count) (enough : count ≤ nodes.length) :
    ∃ head front last back, nodes = front ++ last :: back ∧ count = front.length + 1 ∧
      (front ++ [last]).head? = some head ∧ nodes.head? = some head ∧ (nodes.take count).getLast? = some last := by
  obtain ⟨front, last, taken⟩ : ∃ front last, nodes.take count = front ++ [last] := by
    rcases eq_nil_or_concat' (nodes.take count) with none | cut
    · have zero := congrArg List.length none
      rw [length_take, length_nil] at zero
      omega
    · exact cut
  have sizes := congrArg List.length taken
  rw [length_take, length_append, length_singleton] at sizes
  have split : nodes = front ++ last :: nodes.drop count := by
    rw [← singleton_append, ← append_assoc, ← taken, take_append_drop]
  obtain ⟨head, start⟩ : ∃ head, (front ++ [last]).head? = some head := ⟨_, List.head?_eq_some_head (by simp)⟩
  refine ⟨head, front, last, nodes.drop count, split, by omega, start, ?_, ?_⟩
  · rw [split, ← singleton_append, ← append_assoc, List.head?_append, start]
    rfl
  · rw [taken, List.getLast?_append]
    rfl

theorem Partition.offers (partition : queue.Partition outstanding free chain) (sized : queue.Sized)
    (enough : inputs.length + outputs.length ≤ free.length) :
    Settles (Fits inputs outputs) (do
        let offer ← Offer.inputs queue.descs ⟨queue.shared.table, queue.freeHead, queue.freeHead⟩ inputs
        Offer.outputs queue.descs (0, offer) outputs) fun result =>
      result.1 = (outputs.map (·.len)).sum ∧ Offer.Advanced queue.descs
        ⟨queue.shared.table, queue.freeHead, queue.freeHead⟩ result.2 free (inputs.length + outputs.length) := by
  have bound : ∀ node ∈ free, node < queue.descs.length ∧ node < queue.shared.table.length := fun node member =>
    have inside := partition.lt (mem_append_left _ member)
    ⟨inside, lt_of_lt_of_le inside sized.table⟩
  refine ((Offer.inputs_settles partition.freeList (by omega) bound).bind
    ((∀ buf ∈ outputs, buf.Fits) ∧ 0 + (outputs.map (·.len)).sum < 2 ^ 32) fun mid _ one => ?_).congr ?_
  · refine (Offer.outputs_settles one.current (by rw [length_drop]; omega) (fun node member => ?_)
      (by decide)).mono Iff.rfl fun result _ two => ⟨two.1.trans (zero_add _), one.append two.2⟩
    rw [one.table]
    exact bound node (mem_of_mem_drop member)
  · rw [Fits, forall_mem_append, zero_add, and_assoc]

theorem Sound.lens_detached (sound : queue.Sound outstanding)
    (fresh : ∀ ticket ∈ outstanding, ticket.token ≠ head)
    (detached : Detached queue after head last count outputLen) (position len : Nat) :
    Virtio.lens after.descs position = some len ↔
      ∃ ticket ∈ outstanding ++ [⟨head, outputLen⟩], ticket.token = position ∧ ticket.writable = len := by
  rw [detached.lens]
  by_cases same : position = head
  · subst same
    rw [update_self]
    constructor
    · intro stored
      exact ⟨_, mem_append_right _ (mem_singleton_self _), rfl, Option.some.inj stored⟩
    · rintro ⟨ticket, member, own, rfl⟩
      rcases mem_append.mp member with old | new
      · exact absurd own (fresh ticket old)
      · rw [mem_singleton.mp new]
  · rw [update_of_ne same, sound.lens]
    constructor
    · rintro ⟨ticket, member, own⟩
      exact ⟨ticket, mem_append_left _ member, own⟩
    · rintro ⟨ticket, member, own, total⟩
      rcases mem_append.mp member with old | new
      · exact ⟨ticket, old, own, total⟩
      · rw [mem_singleton.mp new] at own
        exact absurd own.symm same

theorem Sound.of_slots (sound : queue.Sound outstanding) (sized : after.Sized) (descs : after.descs = queue.descs)
    (freeHead : after.freeHead = queue.freeHead) (numUsed : after.numUsed = queue.numUsed) :
    after.Sound outstanding := by
  obtain ⟨free, chain, partition⟩ := sound.partition
  refine ⟨sized, ⟨free, chain, ?_, ?_, ?_, ?_⟩, sound.tokens, ?_⟩
  · rw [descs, freeHead]
    exact partition.freeList
  · rw [descs]
    exact partition.chains
  · rw [descs]
    exact partition.covers
  · rw [numUsed]
    exact partition.used
  · rw [descs]
    exact sound.lens

theorem Sound.addDmaBufs_enough (sound : queue.Sound outstanding) (given : inputs ++ outputs ≠ [])
    (enough : queue.numUsed + (inputs.length + outputs.length) ≤ queue.descs.length) :
    Settles (Fits inputs outputs) (queue.addDmaBufs inputs outputs) fun outcome => ∃ head, outcome.1 = .ok head ∧
      outcome.2.Sound (outstanding ++ [⟨head, (outputs.map (·.len)).sum⟩]) := by
  obtain ⟨free, chain, partition⟩ := sound.partition
  have length := partition.length
  have room := sound.sized.descs
  have few : inputs.length + outputs.length ≤ free.length := by omega
  have positive : 0 < inputs.length + outputs.length := by
    rw [← length_append]
    exact length_pos_iff.mpr given
  obtain ⟨head, front, last, back, split, count, start, begins, ends⟩ := exists_cut positive few
  rw [← partition.freeList.head?] at begins
  have first : Checked.unwrap queue.freeHead = .ok head := by
    rw [begins]
    rfl
  rw [partition.addDmaBufs_enter given few, first, bind_ok, ← bind_assoc]
  refine (partition.offers sound.sized few).returning ?_
  rintro ⟨total, offer⟩ _ ⟨rfl, advanced⟩
  have reached : offer.last = some last := by
    rw [advanced.last, ends]
    rfl
  have headFree : head ∈ free := mem_of_mem_head? (partition.freeList.head?.symm.trans begins)
  have lastFree : last ∈ free := by
    rw [split]
    exact mem_append_right _ mem_cons_self
  obtain ⟨cut, ran, detached⟩ := @detach_ok queue head last sound.sized offer.table (inputs.length + outputs.length)
    (outputs.map (·.len)).sum advanced.table (partition.lt (mem_append_left _ headFree))
    (partition.lt (mem_append_left _ lastFree)) (by omega)
  have fresh : ∀ ticket ∈ outstanding, ticket.token ≠ head := by
    rintro ticket member rfl
    exact partition.apart headFree (Partition.mem_inChains member (partition.token_mem member))
  have tokens : ((outstanding ++ [(⟨head, (outputs.map (·.len)).sum⟩ : Ticket)]).map (·.token)).Nodup := by
    rw [map_append, nodup_append]
    refine ⟨sound.tokens, nodup_singleton _, ?_⟩
    rintro token old other new rfl
    obtain ⟨ticket, member, rfl⟩ := mem_map.mp old
    exact fresh ticket member (mem_singleton.mp new)
  rw [split] at partition
  have next : cut.Sound (outstanding ++ [⟨head, (outputs.map (·.len)).sum⟩]) :=
    ⟨detached.sized, ⟨back, _, partition.detached start count detached⟩, tokens,
      sound.lens_detached fresh detached⟩
  obtain ⟨after, offered, sized, descs, freeHead, numUsed⟩ := offerHead_ok detached.sized head
  refine ⟨(.ok head, after), ?_, head, rfl, next.of_slots sized descs freeHead numUsed⟩
  dsimp only
  rw [reached, Checked.unwrap, bind_ok, ran, bind_ok, offered]
  rfl

def Popped (minBytes : Nat) (outstanding : List Ticket) : Except PopUsedError (Nat × Nat) × VirtQueue → Prop
  | (.error _, after) => after.Sound outstanding
  | (.ok (token, len), after) => after.Sound (outstanding.filter (·.token ≠ token)) ∧
    ∃ ticket ∈ outstanding, ticket.token = token ∧ minBytes ≤ len ∧ len ≤ ticket.writable

variable {desc : DescriptorSlot}

theorem inUse_eq_some {index dmaLen : Nat} (found : queue.inUse index = some (desc, dmaLen)) :
    queue.descs[index]? = some desc ∧ Virtio.lens queue.descs index = some dmaLen := by
  obtain ⟨slot, listed, held⟩ := Option.bind_eq_some_iff.mp found
  obtain ⟨len, stored, same⟩ := Option.bind_eq_some_iff.mp held
  obtain ⟨rfl, rfl⟩ := Prod.mk.inj (Option.some.inj same)
  refine ⟨listed, ?_⟩
  rw [Virtio.lens, field, listed]
  exact stored

theorem Sound.recycleDescriptors_meets (sound : queue.Sound outstanding)
    (member : ticket ∈ outstanding) (found : queue.descs[ticket.token]? = some desc)
    (limit : Nat) :
    Meets (fun panic => panic = .hang ∧ limit < queue.descs.length)
      ({ queue with descs := queue.descs.set ticket.token { desc with len := none } }.recycleDescriptors limit
        ticket.token)
      fun after => after.Sound (outstanding.filter (·.token ≠ ticket.token)) := by
  obtain ⟨free, chain, partition⟩ := sound.partition
  obtain ⟨bound, _⟩ := List.getElem?_eq_some_iff.mp found
  obtain ⟨cleared, stored⟩ : ∃ cleared, cleared = queue.descs.set ticket.token { desc with len := none } :=
    ⟨_, rfl⟩
  have length : cleared.length = queue.descs.length := by rw [stored, length_set]
  have linked : links cleared = links queue.descs := by
    rw [stored]
    refine field_set_same found ?_
    rfl
  have emptied : Virtio.lens cleared = update (Virtio.lens queue.descs) ticket.token none := by
    rw [stored]
    exact field_set _ bound _
  rw [← stored]
  have perm := perm_cons_filter sound.tokens member
  have kept : { queue with descs := cleared }.Partition outstanding free chain :=
    ⟨linked.symm ▸ partition.freeList, linked.symm ▸ partition.chains, length.symm ▸ partition.covers,
      partition.used⟩
  obtain ⟨front, last, whole⟩ : ∃ front last, chain ticket.token = front ++ [last] := by
    rcases eq_nil_or_concat' (chain ticket.token) with none | cut
    · have own := partition.token_mem member
      rw [none] at own
      cases own
    · exact cut
  have sum := ((perm.flatMap_right fun ticket => chain ticket.token).length_eq).symm
  have used := partition.used
  have all := partition.length
  rw [flatMap_cons, whole, length_append, length_append, length_singleton] at sum
  rw [inChains] at used
  have chained := kept.chains ticket member
  rw [whole] at chained
  have sized : { queue with descs := cleared, freeHead := some ticket.token }.Sized :=
    ⟨length ▸ sound.sized.descs, length ▸ sound.sized.table, sound.sized.device, sound.sized.avail,
      sound.sized.used⟩
  have ran := @recycle_meets { queue with descs := cleared, freeHead := some ticket.token } limit ticket.token last
    queue.freeHead front sized chained (fun node own => kept.lt (mem_append_right _
      (Partition.mem_inChains member (whole ▸ own)))) (by dsimp only; omega)
  refine Meets.mono (ran.weaken ?_) ?_
  · rintro panic ⟨rfl, short⟩
    exact ⟨rfl, by omega⟩
  · intro after recycled
    refine ⟨recycled.sized, ⟨_, chain, kept.recycled perm whole recycled⟩, ?_, ?_⟩
    · exact sound.tokens.sublist (filter_sublist.map _)
    · intro position len
      rw [recycled.lens, emptied]
      by_cases same : position = ticket.token
      · subst same
        rw [update_self]
        constructor
        · intro absurd
          cases absurd
        · rintro ⟨other, listed, own, _⟩
          exact absurd own (of_decide_eq_true (mem_filter.mp listed).2)
      · rw [update_of_ne same, sound.lens]
        constructor
        · rintro ⟨other, listed, rfl, total⟩
          exact ⟨other, mem_filter.mpr ⟨listed, decide_eq_true same⟩, rfl, total⟩
        · rintro ⟨other, listed, own⟩
          exact ⟨other, mem_of_mem_filter listed, own⟩

theorem distance_succ {last used : BitVec 16} (differ : last ≠ used) :
    (used - (last + 1)).toNat + 1 = (used - last).toNat := by
  bv_omega

theorem Sized.usedElem_ok (sized : queue.Sized) : ∃ element, queue.usedElem = .ok element := by
  obtain ⟨mask, slot⟩ := masked_lt sized.device queue.lastUsedIdx
  obtain ⟨element, found⟩ : ∃ element,
      queue.shared.usedRing[queue.lastUsedIdx.toNat &&& (queue.deviceQueueSize - 1)]? = some element :=
    ⟨_, List.getElem?_eq_getElem (sized.used.symm ▸ slot)⟩
  exact ⟨element, by rw [usedElem, mask, bind_ok, index_getElem? found]⟩

theorem Sound.popFrom_meets (sound : queue.Sound outstanding) (limit minBytes turns : Nat) :
    Meets (fun panic => panic = .hang ∧ (limit < queue.descs.length ∨
        turns ≤ (queue.shared.usedIdx - queue.lastUsedIdx).toNat))
      (queue.popFrom limit minBytes turns) (Popped minBytes outstanding) := by
  induction turns generalizing queue with
  | zero => exact ⟨rfl, .inr (zero_le _)⟩
  | succ turns ih =>
    rw [popFrom]
    by_cases ready : queue.canPop = true
    · have differ : queue.lastUsedIdx ≠ queue.shared.usedIdx := by simpa [canPop] using ready
      have closer := distance_succ differ
      obtain ⟨element, served⟩ := sound.sized.usedElem_ok
      rw [ready, if_neg (by simp), served, bind_ok]
      dsimp only
      obtain ⟨moved, next⟩ : ∃ moved : VirtQueue, moved = { queue with lastUsedIdx := queue.lastUsedIdx + 1 } :=
        ⟨_, rfl⟩
      have kept : moved.Sound outstanding := by
        rw [next]
        exact sound.of_slots ⟨sound.sized.descs, sound.sized.table, sound.sized.device, sound.sized.avail,
          sound.sized.used⟩ rfl rfl rfl
      have later : Meets (fun panic => panic = .hang ∧ (limit < queue.descs.length ∨
          turns + 1 ≤ (queue.shared.usedIdx - queue.lastUsedIdx).toNat))
          (moved.popFrom limit minBytes turns) (Popped minBytes outstanding) := by
        refine (ih kept).weaken ?_
        rintro panic ⟨rfl, short⟩
        rw [next] at short
        refine ⟨rfl, short.imp_right fun few => ?_⟩
        dsimp only at few
        omega
      rw [← next]
      cases used : moved.inUse element.id.toNat with
      | none => exact later
      | some held =>
        obtain ⟨desc, dmaLen⟩ := held
        obtain ⟨found, stored⟩ := inUse_eq_some used
        obtain ⟨ticket, member, own, total⟩ := (kept.lens _ _).mp stored
        obtain ⟨bound, _⟩ := List.getElem?_eq_some_iff.mp found
        have fits : element.id.toNat % 2 ^ 16 = element.id.toNat := mod_eq_of_lt (by
          have := kept.sized.descs
          omega)
        dsimp only
        by_cases wrong : (decide (element.len.toNat > dmaLen) || decide (element.len.toNat < minBytes)) = true
        · rw [if_pos wrong]
          exact later
        · rw [if_neg wrong, fits, ← own]
          rw [← own] at found
          have range : ¬element.len.toNat > dmaLen ∧ ¬element.len.toNat < minBytes := by
            simpa using wrong
          have recycled := kept.recycleDescriptors_meets member found limit
          rw [next] at recycled
          refine Meets.bind (recycled.weaken ?_) ?_
          · rintro panic ⟨rfl, short⟩
            exact ⟨rfl, .inl short⟩
          · intro after sound
            exact ⟨sound, ticket, member, rfl, by omega, by omega⟩
    · have idle : queue.canPop = false := by simpa using ready
      rw [idle, if_pos (by simp)]
      exact sound

structure Shaped (size deviceQueueSize : Nat) (shared : Shared) : Prop where
  table : size ≤ shared.table.length
  avail : shared.availRing.length = deviceQueueSize
  used : shared.usedRing.length = deviceQueueSize

/-- The queues after any calls that returned, and any writes by the device. With them goes what
was handed out: an add that succeeds hands out a ticket, a pop that succeeds takes one back. -/
inductive Reaches (size deviceQueueSize : Nat) : VirtQueue → List Ticket → Prop
  | new {shared : Shared} (shaped : Shaped size deviceQueueSize shared) :
    Reaches size deviceQueueSize (new size deviceQueueSize shared) []
  | device {queue : VirtQueue} {outstanding : List Ticket} {shared : Shared}
    (reaches : Reaches size deviceQueueSize queue outstanding)
    (shaped : Shaped queue.descs.length queue.deviceQueueSize shared) :
    Reaches size deviceQueueSize { queue with shared := shared } outstanding
  | add {queue after : VirtQueue} {outstanding : List Ticket} {inputs outputs : List DmaBuf} {token : Nat}
    (reaches : Reaches size deviceQueueSize queue outstanding)
    (returns : queue.addDmaBufs inputs outputs = .ok (.ok token, after)) :
    Reaches size deviceQueueSize after (outstanding ++ [⟨token, (outputs.map (·.len)).sum⟩])
  | refused {queue after : VirtQueue} {outstanding : List Ticket} {inputs outputs : List DmaBuf}
    {error : AddBufsError} (reaches : Reaches size deviceQueueSize queue outstanding)
    (returns : queue.addDmaBufs inputs outputs = .ok (.error error, after)) :
    Reaches size deviceQueueSize after outstanding
  | pop {queue after : VirtQueue} {outstanding : List Ticket} {turns minBytes token len : Nat}
    (reaches : Reaches size deviceQueueSize queue outstanding)
    (returns : queue.popUsedWithMinBytes turns minBytes = .ok (.ok (token, len), after)) :
    Reaches size deviceQueueSize after (outstanding.filter (·.token ≠ token))
  | idle {queue after : VirtQueue} {outstanding : List Ticket} {turns minBytes : Nat} {error : PopUsedError}
    (reaches : Reaches size deviceQueueSize queue outstanding)
    (returns : queue.popUsedWithMinBytes turns minBytes = .ok (.error error, after)) :
    Reaches size deviceQueueSize after outstanding

theorem Reaches.addInputBufs {size deviceQueueSize token : Nat}
    (reaches : Reaches size deviceQueueSize queue outstanding)
    (inputs : List DmaBuf) (returns : queue.addInputBufs inputs = .ok (.ok token, after)) :
    Reaches size deviceQueueSize after (outstanding ++ [⟨token, 0⟩]) := reaches.add returns

theorem Reaches.addOutputBufs {size deviceQueueSize token : Nat}
    (reaches : Reaches size deviceQueueSize queue outstanding)
    (outputs : List DmaBuf) (returns : queue.addOutputBufs outputs = .ok (.ok token, after)) :
    Reaches size deviceQueueSize after (outstanding ++ [⟨token, (outputs.map (·.len)).sum⟩]) := reaches.add returns

theorem modify_concat {α : Type} (values : List α) (last : α) (change : α → α) :
    (values ++ [last]).modify values.length change = values ++ [change last] := by
  induction values with
  | nil => rfl
  | cons value values ih => rw [cons_append, length_cons, modify_succ_cons, ih, cons_append]

theorem newDescs_eq (size : Nat) :
    newDescs (size + 1) = (List.range size).map (fun i => ⟨some (i + 1), none⟩) ++ [⟨none, none⟩] := by
  rw [newDescs, Nat.add_sub_cancel]
  induction size with
  | zero => rfl
  | succ size ih =>
    have modified := modify_concat ((List.range size).map fun i => (⟨some (i + 1), none⟩ : DescriptorSlot))
      ⟨none, none⟩ ({ · with next := some (size + 1) })
    rw [length_map, length_range] at modified
    rw [range_succ, foldl_append, ih, foldl_cons, foldl_nil, map_append, modified]
    rfl

theorem linked_range {next : Nat → Option Nat} (start count : Nat)
    (leads : ∀ node, start ≤ node → node < start + count → next node = some (node + 1))
    (ends : next (start + count) = none) : Linked next (some start) (List.range' start (count + 1)) := by
  induction count generalizing start with
  | zero =>
    refine .cons ?_
    rw [add_zero] at ends
    rw [ends]
    exact .nil
  | succ count ih =>
    rw [List.range'_succ]
    refine .cons ?_
    rw [leads start (le_refl _) (by omega)]
    refine ih (start + 1) (fun node low high => leads node (by omega) (by omega)) ?_
    rw [add_right_comm]
    exact ends

theorem field_newDescs {select : DescriptorSlot → Option Nat} (empty : select ⟨none, none⟩ = none)
    (size node : Nat) :
    field select (newDescs (size + 1)) node = if node < size then select ⟨some (node + 1), none⟩ else none := by
  rw [field, newDescs_eq, List.getElem?_append, length_map, length_range, List.getElem?_map]
  split
  case isTrue below =>
    rw [List.getElem?_range below]
    rfl
  case isFalse above => cases node - size <;> first | exact empty | rfl

theorem length_newDescs (size : Nat) : (newDescs (size + 1)).length = size + 1 := by
  rw [newDescs_eq, length_append, length_map, length_range, length_singleton]

theorem new_sound {size deviceQueueSize : Nat} {shared : Shared} (power : ∃ exponent, size = 2 ^ exponent)
    (devicePower : ∃ exponent, deviceQueueSize = 2 ^ exponent) (small : size < 2 ^ 16)
    (shaped : Shaped size deviceQueueSize shared) : (new size deviceQueueSize shared).Sound [] := by
  obtain ⟨size, rfl⟩ : ∃ fewer, size = fewer + 1 := by
    obtain ⟨exponent, rfl⟩ := power
    exact ⟨2 ^ exponent - 1, (Nat.sub_add_cancel (Nat.two_pow_pos exponent)).symm⟩
  have length := length_newDescs size
  refine ⟨⟨length.trans_lt small, length.trans_le shaped.table, devicePower, shaped.avail, shaped.used⟩,
    ⟨List.range (size + 1), fun _ => [], ?_, forall_mem_nil _, ?_, rfl⟩, nodup_nil, ?_⟩
  · rw [range_eq_range']
    refine linked_range 0 size (fun node _ below => ?_) ?_
    · exact (field_newDescs rfl size node).trans (if_pos (by omega))
    · exact (field_newDescs rfl size (0 + size)).trans (if_neg (by omega))
  · rw [inChains, flatMap_nil, append_nil]
    exact (congrArg List.range length).symm ▸ List.Perm.refl _
  · intro position len
    constructor
    · intro stored
      have none : Virtio.lens (newDescs (size + 1)) position = none :=
        (field_newDescs rfl size position).trans (ite_self _)
      cases none.symm.trans stored
    · rintro ⟨ticket, member, _⟩
      cases member

theorem Sound.device (sound : queue.Sound outstanding) {shared : Shared}
    (shaped : Shaped queue.descs.length queue.deviceQueueSize shared) :
    { queue with shared := shared }.Sound outstanding :=
  sound.of_slots ⟨sound.sized.descs, shaped.table, sound.sized.device, shaped.avail, shaped.used⟩ rfl rfl rfl

/-- An add returns exactly if the buffers fit or are refused for another reason. -/
theorem Sound.addDmaBufs_settles (sound : queue.Sound outstanding) (inputs outputs : List DmaBuf) :
    Settles (inputs ++ outputs ≠ [] → queue.numUsed + (inputs.length + outputs.length) ≤ queue.descs.length →
        Fits inputs outputs) (queue.addDmaBufs inputs outputs) fun outcome =>
      (∃ token, outcome.1 = .ok token ∧ (inputs ++ outputs ≠ [] ∧
        queue.numUsed + (inputs.length + outputs.length) ≤ queue.descs.length) ∧
        outcome.2.Sound (outstanding ++ [⟨token, (outputs.map (·.len)).sum⟩])) ∨
      (∃ error, outcome.1 = .error error) ∧ outcome.2 = queue ∧ ¬(inputs ++ outputs ≠ [] ∧
        queue.numUsed + (inputs.length + outputs.length) ≤ queue.descs.length) := by
  by_cases given : inputs ++ outputs = []
  · obtain ⟨rfl, rfl⟩ := append_eq_nil_iff.mp given
    exact ⟨fun absurd => (absurd rfl).elim, .inr ⟨⟨_, rfl⟩, rfl, fun both => both.1 rfl⟩⟩
  · by_cases enough : queue.numUsed + (inputs.length + outputs.length) ≤ queue.descs.length
    · refine (sound.addDmaBufs_enough given enough).mono ⟨fun fits _ _ => fits, fun fits => fits given enough⟩ ?_
      rintro outcome _ ⟨token, same, kept⟩
      exact .inl ⟨token, same, ⟨given, enough⟩, kept⟩
    · obtain ⟨free, chain, partition⟩ := sound.partition
      have length := partition.length
      rw [partition.addDmaBufs_many given (by omega)]
      exact ⟨fun _ absurd => (enough absurd).elim, .inr ⟨⟨_, rfl⟩, rfl, fun both => enough both.2⟩⟩

theorem Sound.popFrom_notReady (sound : queue.Sound outstanding) {limit minBytes turns skipped : Nat}
    (popped : queue.popFrom limit minBytes turns = .ok (.error .notReady, after))
    (pending : skipped < (queue.shared.usedIdx - queue.lastUsedIdx).toNat) {element : UsedElem}
    (served : { queue with lastUsedIdx := queue.lastUsedIdx + BitVec.ofNat 16 skipped }.usedElem = .ok element)
    (member : ticket ∈ outstanding) (own : element.id.toNat = ticket.token) :
    ticket.writable < element.len.toNat ∨ element.len.toNat < minBytes := by
  induction turns generalizing queue skipped with
  | zero => cases popped
  | succ turns ih =>
    have differ : queue.lastUsedIdx ≠ queue.shared.usedIdx := by
      rintro same
      rw [same, sub_self] at pending
      cases pending
    have closer := distance_succ differ
    have ready : queue.canPop = true := by simpa [canPop] using differ
    obtain ⟨first, current⟩ := sound.sized.usedElem_ok
    rw [popFrom, ready, if_neg (by simp), current, bind_ok] at popped
    dsimp only at popped
    generalize next : { queue with lastUsedIdx := queue.lastUsedIdx + 1 } = moved at popped
    have passed : moved.popFrom limit minBytes turns = .ok (.error .notReady, after) ∧ ∀ desc dmaLen,
        moved.inUse first.id.toNat = some (desc, dmaLen) →
          dmaLen < first.len.toNat ∨ first.len.toNat < minBytes := by
      split at popped
      case h_1 used =>
        rw [used]
        split at popped
        case isTrue wrong => exact ⟨popped, by rintro _ _ ⟨⟩; simpa using wrong⟩
        case isFalse =>
          obtain ⟨_, _, absurd⟩ := bind_eq_ok.mp popped
          cases absurd
      case h_2 used =>
        rw [used]
        exact ⟨popped, by simp⟩
    cases skipped with
    | zero =>
      have same : first = element := by simpa [current] using served
      obtain ⟨desc, listed, len⟩ := Option.bind_eq_some_iff.mp ((sound.lens _ _).mpr ⟨ticket, member, rfl, rfl⟩)
      subst same
      refine passed.2 desc ticket.writable ?_
      simp [inUse, ← next, own, listed, len]
    | succ skipped =>
      subst next
      have kept : Sound { queue with lastUsedIdx := queue.lastUsedIdx + 1 } outstanding :=
        sound.of_slots { sound.sized with } rfl rfl rfl
      have ahead : skipped < (queue.shared.usedIdx - (queue.lastUsedIdx + 1)).toNat := by omega
      refine ih kept passed.1 ahead ?_
      rw [← served]
      dsimp only
      rw [add_assoc, add_comm skipped 1, BitVec.ofNat_add]
      rfl

section Runs

variable {size deviceQueueSize : Nat} (power : ∃ exponent, size = 2 ^ exponent)
  (devicePower : ∃ exponent, deviceQueueSize = 2 ^ exponent) (small : size < 2 ^ 16)

include power devicePower small

theorem Reaches.sound (reaches : Reaches size deviceQueueSize queue outstanding) : queue.Sound outstanding := by
  induction reaches with
  | new shaped => exact new_sound power devicePower small shaped
  | device _ shaped ih => exact ih.device shaped
  | add _ returns ih =>
    rcases ((ih.addDmaBufs_settles _ _).of_ok returns).2 with ⟨token, same, _, kept⟩ | ⟨⟨error, absurd⟩, _⟩
    · obtain rfl := Except.ok.inj same
      exact kept
    · cases absurd
  | refused _ returns ih =>
    rcases ((ih.addDmaBufs_settles _ _).of_ok returns).2 with ⟨token, absurd, _⟩ | ⟨_, rfl, _⟩
    · cases absurd
    · exact ih
  | pop _ returns ih => exact ((ih.popFrom_meets _ _ _).of_ok returns).1
  | idle _ returns ih => exact (ih.popFrom_meets _ _ _).of_ok returns

/-- The descriptors are shared out at any time, a pop returns what an add has handed out and not
been given back, and an add does what it is asked to exactly for buffers that fit. -/
theorem reaches_integrity (reaches : Reaches size deviceQueueSize queue outstanding) :
    (∃ free chain, queue.Partition outstanding free chain) ∧ (outstanding.map (·.token)).Nodup ∧
    (∀ minBytes turns, 2 ^ 16 ≤ turns → ∃ result after,
      queue.popUsedWithMinBytes turns minBytes = .ok (result, after) ∧ ∀ token len, result = .ok (token, len) →
        ∃ ticket ∈ outstanding, ticket.token = token ∧ minBytes ≤ len ∧ len ≤ ticket.writable) ∧
    ∀ inputs outputs, (∃ result after, queue.addDmaBufs inputs outputs = .ok (result, after) ∧
        ((∃ token, result = .ok token) ↔ inputs ++ outputs ≠ [] ∧
          queue.numUsed + (inputs.length + outputs.length) ≤ queue.descs.length)) ↔
      (inputs ++ outputs ≠ [] → queue.numUsed + (inputs.length + outputs.length) ≤ queue.descs.length →
        Fits inputs outputs) := by
  have sound := reaches.sound power devicePower small
  refine ⟨sound.partition, sound.tokens, ?_, ?_⟩
  · intro minBytes turns enough
    have meets := sound.popFrom_meets turns minBytes turns
    cases ran : queue.popFrom turns minBytes turns with
    | error panic =>
      rw [ran] at meets
      have size := sound.sized.descs
      have distance := (queue.shared.usedIdx - queue.lastUsedIdx).isLt
      rcases meets.2 with few | short <;> omega
    | ok outcome =>
      obtain ⟨result, after⟩ := outcome
      rw [ran] at meets
      refine ⟨result, after, ran, ?_⟩
      rintro token len rfl
      exact meets.2
  · intro inputs outputs
    have settles := sound.addDmaBufs_settles inputs outputs
    constructor
    · rintro ⟨result, after, ran, _⟩
      exact (settles.of_ok ran).1
    · intro fits
      obtain ⟨⟨result, after⟩, ran, added | ⟨⟨error, failed⟩, _, refused⟩⟩ := settles.exists_ok fits
      · obtain ⟨token, same, both, _⟩ := added
        exact ⟨result, after, ran, iff_of_true ⟨token, same⟩ both⟩
      · refine ⟨result, after, ran, iff_of_false ?_ refused⟩
        rintro ⟨token, same⟩
        cases failed.symm.trans same

/-- No completion is lost, whatever else the device makes up: where a pop finds nothing to return, no
entry that it has gone past is for a token that was handed out, with a length that is asked for and allowed. -/
theorem reaches_notReady (reaches : Reaches size deviceQueueSize queue outstanding) {minBytes turns skipped : Nat}
    (popped : queue.popUsedWithMinBytes turns minBytes = .ok (.error .notReady, after))
    (pending : skipped < (queue.shared.usedIdx - queue.lastUsedIdx).toNat) {element : UsedElem}
    (served : { queue with lastUsedIdx := queue.lastUsedIdx + BitVec.ofNat 16 skipped }.usedElem = .ok element)
    (member : ticket ∈ outstanding) (own : element.id.toNat = ticket.token) :
    ticket.writable < element.len.toNat ∨ element.len.toNat < minBytes :=
  (reaches.sound power devicePower small).popFrom_notReady popped pending served member own

end Runs

def blank : Shared where
  table := List.replicate 2 ⟨0, 0, 0, 0⟩
  availRing := [0, 0]
  availIdx := 0
  usedRing := List.replicate 2 ⟨0, 0⟩
  usedIdx := 0

theorem blank_shaped : Shaped 2 2 blank := ⟨by decide, rfl, rfl⟩

/-- An empty buffer stops an add for which there are descriptors, and so do two buffers whose
lengths do not add up. -/
theorem emptyBuffer_panics : Reaches 2 2 (new 2 2 blank) [] ∧ (new 2 2 blank).availableDesc = .ok 2 ∧
    (new 2 2 blank).addDmaBufs [⟨0x1000, 0⟩] [] = .error .assertFailed ∧
    (new 2 2 blank).addDmaBufs [] [⟨0x1000, 2 ^ 31⟩, ⟨0x1000, 2 ^ 31⟩] = .error .addOverflow :=
  ⟨.new blank_shaped, by decide, by decide, by decide⟩

/-- Two buffers are in use and the device has filled the sector: the pop returns it, and there is no room for
a third. -/
theorem sector_served : ∃ queue after : VirtQueue, Reaches 2 2 queue [⟨0, 512⟩, ⟨1, 0⟩] ∧
    queue.popUsedWithMinBytes (2 ^ 16) 1 = .ok (.ok (0, 512), after) ∧
    (∃ ticket ∈ [(⟨0, 512⟩ : Ticket), ⟨1, 0⟩], ticket.token = 0 ∧ 1 ≤ 512 ∧
      512 ≤ ticket.writable) ∧
    ∃ result next, queue.addDmaBufs [⟨0x3000, 16⟩] [] = .ok (result, next) ∧
      ¬∃ token, result = .ok token := by
  have added := (@Reaches.new 2 2 blank blank_shaped).addOutputBufs [⟨0x1000, 512⟩] rfl
  have again := added.addInputBufs [⟨0x2000, 16⟩] rfl
  have served := @Reaches.device 2 2 _ _ { blank with usedRing := [⟨0, 512⟩, ⟨0, 0⟩], usedIdx := 1 } again
    ⟨by decide, rfl, rfl⟩
  obtain ⟨_, _, pops, adds⟩ := reaches_integrity ⟨1, rfl⟩ ⟨1, rfl⟩ (by decide) served
  obtain ⟨_, _, popped, owned⟩ := pops 1 (2 ^ 16) (Nat.le_refl _)
  obtain ⟨other, next, refused, full⟩ := (adds [⟨0x3000, 16⟩] []).mpr fun _ room => absurd room (by decide)
  exact ⟨_, _, served, rfl, owned 0 512 (congrArg Prod.fst (Except.ok.inj popped)).symm, other, next, refused,
    full.not.mpr fun both => absurd both.2 (by decide)⟩

/-- The device claims to have written more than the sector. -/
theorem sector_overlong : ∃ queue after : VirtQueue, Reaches 2 2 queue [⟨0, 512⟩] ∧
    queue.popUsedWithMinBytes 2 0 = .ok (.error .notReady, after) ∧ (512 < 513 ∨ 513 < 0) := by
  have added := (@Reaches.new 2 2 blank blank_shaped).addOutputBufs [⟨0x1000, 512⟩] rfl
  have served := @Reaches.device 2 2 _ _ { blank with usedRing := [⟨0, 513⟩, ⟨0, 0⟩], usedIdx := 1 } added
    ⟨by decide, rfl, rfl⟩
  exact ⟨_, _, served, rfl,
    @reaches_notReady _ _ _ ⟨0, 512⟩ 2 2 ⟨1, rfl⟩ ⟨1, rfl⟩ (by decide) served 0 2 0 rfl
    (by decide) ⟨0, 513⟩ rfl (mem_singleton_self _) rfl⟩

end VirtQueue

end Kei.Virtio
