import Kei.FrameAllocator.Balancing
import Mathlib.Data.BitVec

/-! The allocator over every run of its calls: the memory in the caches and pools together
with the memory that is allocated is the memory that was added. -/

namespace Kei.FrameAllocator

open Library Checked CacheKind List Function

namespace CacheArray

variable {count : Nat}

def weigh (cache : CacheArray count) (size : Nat) (weight : Nat → Nat → Nat) : Nat :=
  (cache.segments.map fun addr => weight addr size).sum

variable {cache : CacheArray count}

theorem popFront_of_cons {addr : Nat} {rest : List Nat}
    (contents : cache.segments = addr :: rest) :
    ∃ left, cache.popFront = some (addr, left) ∧ left.segments = rest := by
  obtain ⟨segments, fits⟩ := cache
  dsimp only at contents
  subst contents
  exact ⟨_, rfl, rfl⟩

theorem popFront_of_nil (contents : cache.segments = []) : cache.popFront = none := by
  obtain ⟨segments, fits⟩ := cache
  dsimp only at contents
  subst contents
  rfl

theorem popMany_rule {number : Nat} (enough : number ≤ cache.segments.length) :
    Returns (cache.popMany number) fun (popped, rest) =>
      popped.length = number ∧ cache.segments = popped ++ rest.segments := by
  induction number generalizing cache with
  | zero => exact ⟨rfl, rfl⟩
  | succ number ih =>
    cases contents : cache.segments with
    | nil => simp [contents] at enough
    | cons addr rest =>
      obtain ⟨left, popped, remaining⟩ := popFront_of_cons contents
      rw [contents, length_cons] at enough
      unfold popMany
      rw [popped]
      simp only [unwrap, bind_ok]
      refine (@ih left (by rw [remaining]; omega)).bind ?_
      rintro ⟨more, final⟩ ⟨length, split⟩
      rw [remaining] at split
      exact ⟨congrArg (· + 1) length, congrArg (addr :: ·) split⟩

theorem pushMany_segments {addrs : List Nat}
    (room : cache.segments.length + addrs.length ≤ count) :
    (cache.pushMany addrs).segments = addrs.reverse ++ cache.segments := by
  induction addrs generalizing cache with
  | nil => rfl
  | cons addr rest ih =>
    rw [length_cons] at room
    have space : cache.segments.length < count := by omega
    have pushed : cache.pushFront addr = some ⟨addr :: cache.segments, space⟩ := by simp [pushFront, space]
    show (pushMany ((cache.pushFront addr).getD cache) rest).segments = _
    rw [pushed, Option.getD_some, ih (by rw [length_cons]; omega)]
    simp

end CacheArray

variable {cpus : Nat}

namespace Allocator

variable {state after : Allocator cpus}

def weigh (state : Allocator cpus) (weight : Nat → Nat → Nat) : Nat :=
  state.openSession.weigh weight + ∑ place, (state.caches place).weigh place.2.segmentSize weight

/-- The pools are sound, the snapshot is the size of the global pool, and the caches hold whole pages. -/
structure Sound (state : Allocator cpus) : Prop where
  pools : state.openSession.Sound
  snapshot : state.globalPoolSize = (state.sets .global).totalSize
  pages : ∀ place, ∀ addr ∈ (state.caches place).segments, pageSize ∣ addr

structure Changed (before after : Allocator cpus) (gain loss : (Nat → Nat → Nat) → Nat) : Prop where
  sound : after.Sound
  weighs : ∀ {weight}, Spread weight → after.weigh weight + loss weight = before.weigh weight + gain weight
  counters : after.totalFreeSize = before.totalFreeSize

theorem new_sound (cpus : Nat) : (new cpus).Sound := by
  have nothing : ∀ weight, (new cpus).openSession.weigh weight = 0 := by
    intro weight
    simp [Session.weigh, openSession, new, BuddySet.newEmpty, BuddySet.weigh, Shelves.total]
  refine ⟨⟨fun pool => BuddySet.newEmpty_sound _, fun point => ?_, fun _ => rfl⟩, rfl, ?_⟩
  · rw [nothing]
    omega
  · exact fun _ _ member => absurd member not_mem_nil

section Pools

variable {session : Session cpus} {cpu : Fin cpus} {gain loss : (Nat → Nat → Nat) → Nat}

theorem Sound.getGlobalSize_eq (sound : state.Sound) (shifted : Session.Shifted state.openSession session gain loss) :
    session.getGlobalSize state.globalPoolSize = (session.sets .global).totalSize := by
  unfold Session.getGlobalSize
  cases locked : session.locked with
  | true => rfl
  | false =>
    obtain ⟨-, same⟩ := shifted.unlocked locked
    rw [same]
    exact sound.snapshot

theorem closeSession_changed (sound : state.Sound) (shifted : Session.Shifted state.openSession session gain loss) :
    Changed state (state.closeSession session) gain loss where
  sound :=
    { pools := ⟨shifted.sound.each, shifted.sound.apart, shifted.sound.unused⟩
      snapshot := sound.getGlobalSize_eq shifted
      pages := sound.pages }
  weighs := fun spread => by
    have := shifted.weighs spread
    show session.weigh _ + _ + _ = state.openSession.weigh _ + _ + _
    simp only [closeSession]
    omega
  counters := rfl

/-- Between a global and a local pool of these sizes, balancing moves at least a page or nothing. -/
def Balances (cpus : Nat) (sizes : Nat × Nat) : Prop := Movable cpus sizes.1 sizes.2

theorem balance_closes (sound : state.Sound) (shifted : Session.Shifted state.openSession session gain loss) :
    Settles (Balances cpus (session.sizes cpu)) (balance state.globalPoolSize cpu session) fun final =>
      Changed state (state.closeSession final) gain loss := by
  have balanced := @balance_rule _ state.globalPoolSize cpu _ shifted.sound
  rw [sound.getGlobalSize_eq shifted] at balanced
  refine balanced.mono .rfl fun final _ balanced => ?_
  exact closeSession_changed sound ((shifted.trans balanced).congr fun _ => by simp)

def PoolsAllocRoomy (state : Allocator cpus) (cpu : Fin cpus) (layout : Layout) : Prop :=
  Balances cpus (state.openSession.sizesAfter cpu layout)

def PoolsDeallocRoomy (state : Allocator cpus) (cpu : Fin cpus) (segments : List (Nat × Nat)) : Prop :=
  Session.Fits segments ∧ Balances cpus
    (state.openSession.sizes cpu + (segments.map fun segment => shares segment.1 segment.2).sum)

theorem poolsAlloc_rule (sound : state.Sound) (layout : Layout) :
    Settles (state.PoolsAllocRoomy cpu layout) (state.poolsAlloc cpu layout) fun (after, result) =>
      after.caches = state.caches ∧ match result with
        | none => Changed state after (fun _ => 0) fun _ => 0
        | some addr => sizeOfOrder layout.order ∣ addr ∧
            Changed state after (fun _ => 0) fun weight => weight addr layout.size := by
  unfold poolsAlloc PoolsAllocRoomy
  refine (Session.takeLayout_rule cpu sound.pools layout).before ?_
  rintro ⟨session, result⟩ ⟨sizes, outcome⟩
  rw [← sizes]
  cases result with
  | none => exact (balance_closes sound outcome).map fun final _ changed => ⟨rfl, changed⟩
  | some addr => exact (balance_closes sound outcome.2).map fun final _ changed => ⟨rfl, outcome.1, changed⟩

theorem poolsDealloc_rule (sound : state.Sound) {segments : List (Nat × Nat)}
    (pages : ∀ segment ∈ segments, pageSize ∣ segment.1 ∧ pageSize ∣ segment.2)
    (room : ∀ point, state.openSession.weigh (covers point) +
      (segments.map fun segment => covers point segment.1 segment.2).sum ≤ 1) :
    Settles (state.PoolsDeallocRoomy cpu segments) (state.poolsDealloc cpu segments) fun after =>
      Changed state after (fun weight => (segments.map fun segment => weight segment.1 segment.2).sum) fun _ => 0 := by
  unfold poolsDealloc PoolsDeallocRoomy
  refine (Session.doDealloc_rule cpu sound.pools pages room).bind _ fun session _ ⟨shifted, sizes⟩ => ?_
  rw [← sizes]
  exact (balance_closes sound shifted).map fun final _ changed => changed

theorem poolsAddFreeMemory_rule (sound : state.Sound) {addr size : Nat} (addrPage : pageSize ∣ addr)
    (sizePage : pageSize ∣ size)
    (room : ∀ point, state.openSession.weigh (covers point) + covers point addr size ≤ 1) :
    Settles (Session.Fits [(addr, size)]) (state.poolsAddFreeMemory addr size) fun after =>
      Changed state after (fun weight => weight addr size) fun _ => 0 := by
  unfold poolsAddFreeMemory Session.Fits
  rw [← bind_assoc, forall_mem_singleton]
  refine (Session.split_settles addrPage sizePage fun chunks tiles => (Session.insertAll_rule
    (Session.grown_counts .global) Session.insertGlobal_inserts sound.pools tiles room).mono .rfl
      fun session _ met => met.1).map ?_
  exact fun session _ shifted => closeSession_changed sound shifted

end Pools

section Caches

variable {cpu : Fin cpus} {kind : CacheKind}

theorem weigh_cache (state : Allocator cpus) (cpu : Fin cpus) (kind : CacheKind) (cache : CacheArray kind.count)
    (weight : Nat → Nat → Nat) :
    weigh { state with caches := update state.caches (cpu, kind) cache } weight +
        (state.caches (cpu, kind)).weigh kind.segmentSize weight =
      state.weigh weight + cache.weigh kind.segmentSize weight := by
  have split := sum_update
    (fun (place : Fin cpus × CacheKind) cache => CacheArray.weigh cache place.2.segmentSize weight) state.caches
    (Finset.mem_univ (cpu, kind)) cache
  show state.openSession.weigh weight + _ + _ = state.openSession.weigh weight + _ + _
  dsimp only at split ⊢
  omega

theorem cache_le (state : Allocator cpus) (cpu : Fin cpus) (kind : CacheKind) (weight : Nat → Nat → Nat) :
    state.openSession.weigh weight + (state.caches (cpu, kind)).weigh kind.segmentSize weight ≤ state.weigh weight :=
  Nat.add_le_add_left (Finset.single_le_sum
    (f := fun place : Fin cpus × CacheKind => (state.caches place).weigh place.2.segmentSize weight)
    (fun _ _ => Nat.zero_le _) (Finset.mem_univ (cpu, kind))) _

theorem Sound.withCache (sound : state.Sound) {cache : CacheArray kind.count}
    (pages : ∀ addr ∈ cache.segments, pageSize ∣ addr) :
    Sound { state with caches := update state.caches (cpu, kind) cache } where
  __ := sound
  pages := fun place => by
    by_cases here : place = (cpu, kind)
    · subst here
      dsimp only
      rw [update_self]
      exact pages
    · dsimp only
      rw [update_of_ne here]
      exact sound.pages place

theorem segments_weigh {weight : Nat → Nat → Nat} (spread : Spread weight) (kind : CacheKind) (addr : Nat) :
    weight addr kind.fillLayout.size = weight addr kind.segmentSize +
      ((List.range (kind.nrToAlloc - 1)).map fun index =>
        weight (addr + (index + 1) * kind.segmentSize) kind.segmentSize).sum := by
  have positive : 0 < kind.nrToAlloc := by cases kind <;> decide
  have size : kind.fillLayout.size = kind.segmentSize + kind.segmentSize * (kind.nrToAlloc - 1) := by
    show kind.nrToAlloc * kind.segmentSize = _
    obtain ⟨rest, more⟩ := Nat.exists_eq_add_of_lt positive
    rw [more]
    simp only [Nat.zero_add, Nat.add_sub_cancel]
    ring
  rw [size, spread, spread.pieces]
  congr 3
  funext index
  rw [Nat.succ_mul]
  congr 1
  ring

theorem cacheArrayAlloc_rule (sound : state.Sound) :
    Settles ((state.caches (cpu, kind)).segments = [] → state.PoolsAllocRoomy cpu kind.fillLayout)
      (state.cacheArrayAlloc cpu kind) fun (after, result) =>
      match result with
      | none => Changed state after (fun _ => 0) fun _ => 0
      | some addr => Changed state after (fun _ => 0) fun weight => weight addr kind.segmentSize := by
  unfold cacheArrayAlloc
  cases contents : (state.caches (cpu, kind)).segments with
  | cons addr rest =>
    have pages := sound.pages (cpu, kind)
    obtain ⟨left, popped, remaining⟩ := CacheArray.popFront_of_cons contents
    rw [popped]
    refine ⟨(nomatch ·), sound.withCache fun other member => pages other ?_, ?_, rfl⟩
    · rw [remaining] at member
      rw [contents]
      exact mem_cons_of_mem _ member
    · intro weight spread
      have split := state.weigh_cache cpu kind left weight
      simp only [CacheArray.weigh, contents, remaining, map_cons, sum_cons] at split
      omega
  | nil =>
    rw [CacheArray.popFront_of_nil contents]
    simp only [forall_const]
    refine (poolsAlloc_rule sound kind.fillLayout).returning ?_
    rintro ⟨next, result⟩ - ⟨caches, outcome⟩
    cases result with
    | none => exact ⟨_, rfl, outcome⟩
    | some addr =>
      obtain ⟨aligned, changed⟩ := outcome
      have page := (pageSize_dvd_sizeOfOrder _).trans aligned
      have room : (next.caches (cpu, kind)).segments.length +
          ((List.range (kind.nrToAlloc - 1)).map fun index => addr + (index + 1) * kind.segmentSize).length ≤
            kind.count := by
        rw [caches, contents, length_map, length_range]
        cases kind <;> decide
      have filled := CacheArray.pushMany_segments room
      rw [caches, contents, append_nil] at filled
      refine ⟨_, rfl, changed.sound.withCache fun other member => ?_, ?_, changed.counters⟩
      · rw [caches, filled, mem_reverse] at member
        obtain ⟨index, -, rfl⟩ := mem_map.mp member
        exact Nat.dvd_add page (Dvd.dvd.mul_left (Nat.dvd_mul_left _ _) _)
      · intro weight spread
        have split := next.weigh_cache cpu kind
          ((next.caches (cpu, kind)).pushMany ((List.range (kind.nrToAlloc - 1)).map fun index =>
            addr + (index + 1) * kind.segmentSize)) weight
        have before := changed.weighs spread
        rw [segments_weigh spread] at before
        simp only [CacheArray.weigh, caches, contents, filled, map_reverse, sum_reverse, map_map,
          map_nil, sum_nil, Function.comp_def] at split
        simp only [caches]
        omega

theorem segmentSize_lt (kind : CacheKind) : kind.segmentSize < sizeOfOrder maxLocalBuddyOrder := by
  cases kind <;> decide

theorem nrToDealloc_le (kind : CacheKind) : kind.nrToDealloc - 1 ≤ kind.count := by
  cases kind <;> decide

def overflow (kind : CacheKind) (addr : Nat) (popped : List Nat) : List (Nat × Nat) :=
  (addr :: popped).map fun segment => (segment, kind.segmentSize)

theorem overflow_sum (kind : CacheKind) (addr : Nat) (popped : List Nat) (weight : Nat → Nat → Nat) :
    ((overflow kind addr popped).map fun segment => weight segment.1 segment.2).sum =
      weight addr kind.segmentSize + (popped.map fun segment => weight segment kind.segmentSize).sum := by
  simp [overflow, Function.comp_def]

theorem overflow_roomy {addr : Nat} {popped : List Nat} (pages : ∀ start ∈ addr :: popped, pageSize ∣ start)
    (length : popped.length = kind.nrToDealloc - 1) : state.PoolsDeallocRoomy cpu (overflow kind addr popped) ↔
      Balances cpus (state.openSession.sizes cpu + (0, kind.nrToDealloc * kind.segmentSize)) := by
  have fits : Session.Fits (overflow kind addr popped) := by
    refine Session.fits_of_small fun segment member => ?_
    obtain ⟨start, inside, rfl⟩ := mem_map.mp member
    exact ⟨pages start inside, Nat.dvd_mul_left _ _, (segmentSize_lt kind).trans (by decide)⟩
  have given : ((overflow kind addr popped).map fun segment => shares segment.1 segment.2).sum =
      (0, kind.nrToDealloc * kind.segmentSize) := by
    have number : popped.length + 1 = kind.nrToDealloc := by
      rw [length]
      cases kind <;> rfl
    simp only [overflow, map_map, Function.comp_def, shares_of_lt (segmentSize_lt kind), map_const', sum_replicate,
      length_cons, number]
    simp
  rw [PoolsDeallocRoomy, given]
  exact and_iff_right fits

theorem cacheArrayDealloc_rule (sound : state.Sound) {addr : Nat} (page : pageSize ∣ addr)
    (room : ∀ point, state.weigh (covers point) + covers point addr kind.segmentSize ≤ 1) :
    Settles ((state.caches (cpu, kind)).segments.length = kind.count →
        Balances cpus (state.openSession.sizes cpu + (0, kind.nrToDealloc * kind.segmentSize)))
      (state.cacheArrayDealloc cpu kind addr) fun after =>
      Changed state after (fun weight => weight addr kind.segmentSize) fun _ => 0 := by
  have pages := sound.pages (cpu, kind)
  unfold cacheArrayDealloc CacheArray.pushFront
  by_cases space : (state.caches (cpu, kind)).segments.length < kind.count
  · rw [dif_pos space]
    refine ⟨fun full => absurd full space.ne, sound.withCache fun other member => ?_, ?_, rfl⟩
    · rcases mem_cons.mp member with rfl | old
      · exact page
      · exact pages other old
    · intro weight spread
      have split := state.weigh_cache cpu kind ⟨addr :: (state.caches (cpu, kind)).segments, space⟩ weight
      simp only [CacheArray.weigh, map_cons, sum_cons] at split
      omega
  · have full : (state.caches (cpu, kind)).segments.length = kind.count :=
      Nat.le_antisymm (state.caches (cpu, kind)).fits (Nat.le_of_not_lt space)
    rw [dif_neg space]
    simp only [full, forall_const]
    obtain ⟨⟨popped, cache⟩, ran, length, contents⟩ :=
      (CacheArray.popMany_rule ((nrToDealloc_le kind).trans full.ge)).exists_ok
    rw [contents] at pages
    have emptied : Sound { state with caches := update state.caches (cpu, kind) cache } :=
      sound.withCache fun other member => pages other (mem_append_right _ member)
    have split := fun weight => state.weigh_cache cpu kind cache weight
    simp only [CacheArray.weigh, contents, map_append, sum_append] at split
    rw [ran, bind_ok]
    have starts : ∀ start ∈ addr :: popped, pageSize ∣ start :=
      forall_mem_cons.mpr ⟨page, fun start old => pages start (mem_append_left _ old)⟩
    rw [← overflow_roomy starts length]
    refine (poolsDealloc_rule emptied (fun segment member => ?_) fun point => ?_).mono .rfl ?_
    · obtain ⟨start, inside, rfl⟩ := mem_map.mp member
      exact ⟨starts start inside, Nat.dvd_mul_left _ _⟩
    · have := room point
      have := state.cache_le cpu kind (covers point)
      simp only [CacheArray.weigh, contents, map_append, sum_append] at this
      show state.openSession.weigh (covers point) + ((overflow kind addr popped).map _).sum ≤ 1
      rw [overflow_sum]
      omega
    · intro after _ changed
      refine ⟨changed.sound, ?_, changed.counters⟩
      intro weight spread
      have := changed.weighs spread
      have := split weight
      have := overflow_sum kind addr popped weight
      simp only [overflow] at *
      omega

theorem ofFrames_segmentSize {size : Nat} (page : pageSize ∣ size)
    (found : ofFrames (size / pageSize) = some kind) : size = kind.segmentSize := by
  obtain ⟨frames, rfl⟩ := page
  rw [Nat.mul_div_cancel_left _ (by decide : 0 < pageSize)] at found
  unfold segmentSize
  rw [Nat.mul_comm]
  congr 1
  unfold ofFrames at found
  split at found <;> simp at found <;> subst found <;> rfl

end Caches

section Calls

variable {cpu : Fin cpus}

def servedBy (layout : Layout) : Option CacheKind :=
  if layout.align > layout.size then none else CacheKind.ofFrames (layout.size / pageSize)

theorem cacheAlloc_eq (state : Allocator cpus) (cpu : Fin cpus) (layout : Layout) :
    state.cacheAlloc cpu layout = match servedBy layout with
      | some kind => state.cacheArrayAlloc cpu kind
      | none => state.poolsAlloc cpu layout := by
  unfold cacheAlloc servedBy
  split
  · rfl
  · rfl

/-- If an allocation goes to the pools, the balancing that follows moves at least a page or nothing. -/
def AllocRoomy (state : Allocator cpus) (cpu : Fin cpus) (layout : Layout) : Prop :=
  match servedBy layout with
  | some kind => (state.caches (cpu, kind)).segments = [] → state.PoolsAllocRoomy cpu kind.fillLayout
  | none => state.PoolsAllocRoomy cpu layout

/-- The same for a deallocation. A cache that is full gives segments to the local pool, and a range that goes
straight to the pools must fit them as well. -/
def DeallocRoomy (state : Allocator cpus) (cpu : Fin cpus) (addr size : Nat) : Prop :=
  match ofFrames (size / pageSize) with
  | some kind => (state.caches (cpu, kind)).segments.length = kind.count →
      Balances cpus (state.openSession.sizes cpu + (0, kind.nrToDealloc * kind.segmentSize))
  | none => state.PoolsDeallocRoomy cpu [(addr, size)]

theorem cacheAlloc_rule (sound : state.Sound) (layout : Layout) :
    Settles (state.AllocRoomy cpu layout) (state.cacheAlloc cpu layout) fun (after, result) =>
      match result with
      | none => Changed state after (fun _ => 0) fun _ => 0
      | some addr => Changed state after (fun _ => 0) fun weight => weight addr layout.size := by
  rw [cacheAlloc_eq, AllocRoomy]
  cases served : servedBy layout with
  | none =>
    refine (poolsAlloc_rule sound layout).mono .rfl ?_
    rintro ⟨after, result⟩ - ⟨-, outcome⟩
    cases result with
    | none => exact outcome
    | some addr => exact outcome.2
  | some kind =>
    have found : ofFrames (layout.size / pageSize) = some kind := by
      unfold servedBy at served
      split at served
      · simp at served
      · exact served
    rw [ofFrames_segmentSize layout.pages found]
    exact cacheArrayAlloc_rule sound

theorem cacheDealloc_rule (sound : state.Sound) {addr size : Nat} (addrPage : pageSize ∣ addr)
    (sizePage : pageSize ∣ size) (room : ∀ point, state.weigh (covers point) + covers point addr size ≤ 1) :
    Settles (state.DeallocRoomy cpu addr size) (state.cacheDealloc cpu addr size) fun after =>
      Changed state after (fun weight => weight addr size) fun _ => 0 := by
  unfold cacheDealloc DeallocRoomy
  cases found : ofFrames (size / pageSize) with
  | some kind =>
    rw [ofFrames_segmentSize sizePage found] at room ⊢
    exact cacheArrayDealloc_rule sound addrPage room
  | none =>
    refine (poolsDealloc_rule sound (by simpa using ⟨addrPage, sizePage⟩) fun point => ?_).mono .rfl ?_
    · have := room point
      have : state.openSession.weigh (covers point) ≤ state.weigh (covers point) := Nat.le_add_right _ _
      simp only [map_cons, map_nil, sum_cons, sum_nil]
      omega
    · intro after _ changed
      exact ⟨changed.sound, fun spread => by simpa using changed.weighs spread, changed.counters⟩

end Calls

end Allocator

end Kei.FrameAllocator
