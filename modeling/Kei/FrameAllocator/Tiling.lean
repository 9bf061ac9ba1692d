import Kei.FrameAllocator.PoolRules
import Mathlib.Algebra.Ring.Divisibility.Basic

/-! Cutting a range into chunks, giving the chunks to the pools, and taking a layout out of
them. -/

namespace Kei.FrameAllocator

open Library Checked List Nat

def Layout.order (layout : Layout) : Nat := max (greaterOrderOf layout.size) (greaterOrderOf layout.align)

variable {order other : Nat}

theorem sizeOfOrder_mono (le : order ≤ other) : sizeOfOrder order ≤ sizeOfOrder other := by
  unfold sizeOfOrder
  exact Nat.mul_le_mul_right _ (Nat.pow_le_pow_right (by omega) le)

theorem sizeOfOrder_dvd (le : order ≤ other) : sizeOfOrder order ∣ sizeOfOrder other := by
  rw [sizeOfOrder_eq_two_pow, sizeOfOrder_eq_two_pow]
  exact pow_dvd_pow 2 (by omega)

theorem pageSize_dvd_sizeOfOrder (order : Nat) : pageSize ∣ sizeOfOrder order := dvd_mul_left _ _

theorem order_lt_of_sizeOfOrder_lt (lt : sizeOfOrder order < sizeOfOrder other) : order < other := by
  by_contra le
  exact absurd (sizeOfOrder_mono (not_lt.mp le)) (by omega)

theorem add_le_of_dvd {step low high : Nat} (first : step ∣ low) (second : step ∣ high) (lt : low < high) :
    low + step ≤ high := by
  have := le_of_dvd (by omega) (dvd_sub second first)
  omega

theorem sizeOfOrder_lt (lt : order < other) : sizeOfOrder order < sizeOfOrder other := by
  unfold sizeOfOrder
  exact Nat.mul_lt_mul_of_pos_right (Nat.pow_lt_pow_right (by decide) lt) (by decide)

theorem lesserOrderOf_rule (size : Nat) :
    Settles (pageSize ≤ size) (lesserOrderOf size) fun order =>
      sizeOfOrder order ≤ size ∧ ∀ larger, sizeOfOrder larger ≤ size → larger ≤ order := by
  unfold lesserOrderOf
  by_cases page : pageSize ≤ size
  case neg => simp [Meets, div_eq_of_lt (not_le.mp page), sub, page]
  have pages : size / pageSize ≠ 0 := (div_pos page (by decide)).ne'
  simp only [if_neg pages]
  rw [sub_ok (Nat.le_add_left _ _), Nat.add_sub_cancel]
  refine ⟨page, ?_, fun larger fits => (le_log2 pages).mpr ((le_div_iff_mul_le (by decide)).mpr fits)⟩
  calc sizeOfOrder (size / pageSize).log2 ≤ size / pageSize * pageSize :=
        mul_le_mul_right _ (log2_self_le pages)
    _ ≤ size := div_mul_le_self size pageSize

theorem trailingZeros_dvd (width value : Nat) : 2 ^ trailingZeros width value ∣ value := by
  induction width generalizing value with
  | zero => exact one_dvd _
  | succ width ih =>
    unfold trailingZeros
    split
    · exact one_dvd _
    · have half : value = value / 2 * 2 := by omega
      rw [pow_succ]
      conv_rhs => rw [half]
      exact mul_dvd_mul_right (ih _) 2

theorem le_trailingZeros {width value exponent : Nat} (le : exponent ≤ width) (divides : 2 ^ exponent ∣ value) :
    exponent ≤ trailingZeros width value := by
  induction width generalizing value exponent with
  | zero => omega
  | succ width ih =>
    cases exponent with
    | zero => omega
    | succ exponent =>
      obtain ⟨rest, rfl⟩ := divides
      have half : 2 ^ (exponent + 1) * rest / 2 = 2 ^ exponent * rest := by
        rw [pow_succ, Nat.mul_right_comm, Nat.mul_div_cancel _ (by omega)]
      have even : ¬2 ^ (exponent + 1) * rest % 2 = 1 := by
        rw [pow_succ, mul_right_comm, mul_mod_left]
        omega
      unfold trailingZeros
      rw [if_neg even, half]
      have := ih (by omega) (dvd_mul_right (2 ^ exponent) rest)
      omega

theorem maxOrderFrom_rule {addr : Nat} (page : pageSize ∣ addr) :
    Returns (maxOrderFrom addr) fun order => sizeOfOrder order ∣ addr ∧
      ∀ larger, larger + 12 ≤ 64 → sizeOfOrder larger ∣ addr → larger ≤ order := by
  have offset : trailingZeros 64 pageSize = 12 := by decide
  have enough : 12 ≤ trailingZeros 64 addr := le_trailingZeros (by omega) page
  unfold maxOrderFrom
  rw [offset, sub_ok enough]
  refine ⟨?_, fun larger small aligned => ?_⟩
  · rw [sizeOfOrder_eq_two_pow, Nat.sub_add_cancel enough]
    exact trailingZeros_dvd 64 addr
  · rw [sizeOfOrder_eq_two_pow] at aligned
    exact Nat.le_sub_of_add_le (le_trailingZeros small aligned)

/-- The chunks in a row are the range, and each is the largest that fits and is aligned where it starts. -/
def Tiles : Nat → Nat → List (Nat × Nat) → Prop
  | _, size, [] => size = 0
  | addr, size, (chunkAddr, order) :: rest =>
    chunkAddr = addr ∧ sizeOfOrder order ∣ addr ∧ sizeOfOrder order ≤ size ∧
      (∀ larger, larger + 12 ≤ 64 → sizeOfOrder larger ∣ addr → sizeOfOrder larger ≤ size →
        larger ≤ order) ∧
      Tiles (addr + sizeOfOrder order) (size - sizeOfOrder order) rest

namespace Tiles

theorem within : ∀ {chunks : List (Nat × Nat)} {addr size : Nat}, Tiles addr size chunks →
    ∀ chunk ∈ chunks, addr ≤ chunk.1 ∧ sizeOfOrder chunk.2 ∣ chunk.1 ∧
      chunk.1 + sizeOfOrder chunk.2 ≤ addr + size := by
  intro chunks
  induction chunks with
  | nil => simp
  | cons first rest ih =>
    rintro addr size ⟨rfl, aligned, le, _, later⟩ chunk member
    rcases mem_cons.mp member with rfl | member
    · exact ⟨le_rfl, aligned, by omega⟩
    · obtain ⟨lower, divides, upper⟩ := ih later chunk member
      exact ⟨by omega, divides, by omega⟩

theorem weigh {weight : Nat → Nat → Nat} (spread : Spread weight) :
    ∀ {chunks : List (Nat × Nat)} {addr size : Nat},
    Tiles addr size chunks →
      (chunks.map fun chunk => weight chunk.1 (sizeOfOrder chunk.2)).sum = weight addr size := by
  intro chunks
  induction chunks with
  | nil =>
    rintro addr size rfl
    exact (spread.zero addr).symm
  | cons first rest ih =>
    rintro addr size ⟨rfl, _, le, _, later⟩
    rw [map_cons, sum_cons, ih later, ← spread, Nat.add_sub_cancel' le]

end Tiles

theorem splitChunks_rule {turns addr size : Nat} (addrPage : pageSize ∣ addr) (sizePage : pageSize ∣ size)
    (enough : size / pageSize < turns) : Returns (splitChunks turns addr size) (Tiles addr size) := by
  induction turns generalizing addr size with
  | zero => exact absurd enough (not_lt_zero _)
  | succ turns ih =>
    unfold splitChunks
    refine meets_ite (fun empty => empty) fun rest => ?_
    have page : pageSize ≤ size := le_of_dvd (by omega) sizePage
    refine (maxOrderFrom_rule addrPage).bind fun largest ⟨divides, most⟩ => ?_
    refine ((lesserOrderOf_rule size).returns page).bind fun lesser ⟨fits, longest⟩ => ?_
    have le : sizeOfOrder (min largest lesser) ≤ size := (sizeOfOrder_mono (min_le_right _ _)).trans fits
    have aligned : sizeOfOrder (min largest lesser) ∣ addr := (sizeOfOrder_dvd (min_le_left _ _)).trans divides
    have chunkPage := pageSize_dvd_sizeOfOrder (min largest lesser)
    dsimp only
    rw [sub_ok le, bind_ok]
    refine (ih (dvd_add addrPage chunkPage) (dvd_sub sizePage chunkPage) ?_).bind fun chunks tiles => ?_
    · have positive : 0 < pageSize := by decide
      have one : pageSize ≤ sizeOfOrder (min largest lesser) :=
        le_of_dvd (sizeOfOrder_pos _) chunkPage
      have less : (size - sizeOfOrder (min largest lesser)) / pageSize ≤ (size - pageSize) / pageSize :=
        Nat.div_le_div_right (by omega)
      have := div_eq_sub_div positive page
      omega
    · exact ⟨rfl, aligned, le, fun larger small block within => le_min (most larger small block)
        (longest larger within), tiles⟩

theorem splitToChunks_rule {addr size : Nat} (addrPage : pageSize ∣ addr) (sizePage : pageSize ∣ size) :
    Returns (splitToChunks addr size) (Tiles addr size) := by
  unfold splitToChunks
  have first : (addr % pageSize == 0) = true := by simpa using mod_eq_zero_of_dvd addrPage
  have second : (size % pageSize == 0) = true := by simpa using mod_eq_zero_of_dvd sizePage
  simp only [assert, first, second, if_true, bind_ok]
  exact splitChunks_rule addrPage sizePage (lt_succ_self _)

variable {cpus : Nat}

/-- The bytes of a range in whole blocks of the smallest order that no local pool takes, and its other bytes. -/
def shares (addr size : Nat) : Nat × Nat :=
  let block := sizeOfOrder maxLocalBuddyOrder
  let whole := block * ((addr + size) / block - (addr + (block - 1)) / block)
  (whole, size - whole)

def growth (order : Nat) : Nat × Nat :=
  if order ≥ maxLocalBuddyOrder then (sizeOfOrder order, 0) else (0, sizeOfOrder order)

theorem block_eq : sizeOfOrder maxLocalBuddyOrder = 1073741824 := by decide

theorem shares_eq (addr size : Nat) : shares addr size =
    (1073741824 * ((addr + size) / 1073741824 - (addr + 1073741823) / 1073741824),
      size - 1073741824 * ((addr + size) / 1073741824 - (addr + 1073741823) / 1073741824)) := by
  simp only [shares, block_eq]

theorem shares_of_lt {addr size : Nat} (small : size < sizeOfOrder maxLocalBuddyOrder) :
    shares addr size = (0, size) := by
  rw [block_eq] at small
  rw [shares_eq, Prod.mk.injEq]
  omega

theorem shares_tail {addr size : Nat} (aligned : sizeOfOrder order ∣ addr) :
    shares (addr + size) (sizeOfOrder order - size) = shares size (sizeOfOrder order - size) := by
  obtain small | large := lt_or_ge order maxLocalBuddyOrder
  · have lt : sizeOfOrder order - size < sizeOfOrder maxLocalBuddyOrder :=
      (Nat.sub_le _ _).trans_lt (sizeOfOrder_lt small)
    rw [shares_of_lt lt, shares_of_lt lt]
  · obtain ⟨blocks, rfl⟩ := (sizeOfOrder_dvd large).trans aligned
    rw [shares_eq, shares_eq, block_eq, Prod.mk.injEq]
    omega

theorem Tiles.shares : ∀ {chunks : List (Nat × Nat)} {addr size : Nat}, Tiles addr size chunks →
    (chunks.map fun chunk => growth chunk.2).sum = shares addr size := by
  intro chunks
  induction chunks with
  | nil =>
    rintro addr size rfl
    exact (shares_of_lt (sizeOfOrder_pos _)).symm
  | cons first rest ih =>
    obtain ⟨addr, order⟩ := first
    rintro _ size ⟨rfl, aligned, le, most, later⟩
    rw [map_cons, sum_cons, ih later, shares_eq, shares_eq]
    dsimp only [growth]
    have positive := sizeOfOrder_pos order
    split
    · rename_i large
      obtain ⟨start, begins⟩ := (sizeOfOrder_dvd large).trans aligned
      obtain ⟨width, whole⟩ := sizeOfOrder_dvd large
      rw [block_eq] at begins whole
      rw [Prod.mk_add_mk, Prod.mk.injEq]
      omega
    · rename_i small
      have part : sizeOfOrder order ∣ 1073741824 := block_eq ▸ sizeOfOrder_dvd (by omega)
      have shorter : sizeOfOrder order ≤ 1073741824 := le_of_dvd (by decide) part
      rw [Prod.mk_add_mk, Prod.mk.injEq]
      by_cases atBlock : sizeOfOrder maxLocalBuddyOrder ∣ addr
      · -- a block would have been cut off here if there were one
        have short : ¬sizeOfOrder maxLocalBuddyOrder ≤ size := fun fits => small (most _ (by decide) atBlock fits)
        rw [block_eq] at atBlock short
        omega
      · rw [block_eq] at atBlock
        have inside := add_le_of_dvd aligned (part.mul_right ((addr + 1073741823) / 1073741824)) (by omega)
        omega

namespace Session

variable {session : Session cpus}

/-- The sizes of the global pool and of the local one. -/
def sizes (session : Session cpus) (cpu : Fin cpus) : Nat × Nat :=
  ((session.sets .global).totalSize, (session.sets (.ofCpu cpu)).totalSize)

section Folds

variable {α M : Type} [AddMonoid M] {relation : M → Session cpus → Session cpus → Prop}

structure Counts (relation : M → Session cpus → Session cpus → Prop) : Prop where
  refl : ∀ session, relation 0 session session
  trans : ∀ {first second before mid after}, relation first before mid → relation second mid after →
    relation (first + second) before after

theorem sizes_counts (cpu : Fin cpus) :
    Counts fun amount before after => sizes after cpu = sizes before cpu + amount where
  refl := fun _ => rfl
  trans := fun one two => by rw [two, one, add_assoc]

theorem grown_counts (pool : PoolId cpus) : Counts (Grown pool) where
  refl := fun _ => ⟨rfl, fun _ _ => rfl⟩
  trans := fun one two => ⟨by rw [two.size, one.size, add_assoc],
    fun other differs => (two.others other differs).trans (one.others other differs)⟩

theorem foldlM_settles (counts : Counts relation) {step : Session cpus → α → Checked (Session cpus)}
    {holds : α → Prop} (gain : α → (Nat → Nat → Nat) → Nat) (amount : α → M) {items : List α}
    (each : ∀ (session : Session cpus), ∀ item ∈ items, session.Sound →
      (∀ point, session.weigh (covers point) + gain item (covers point) ≤ 1) →
        Settles (holds item) (step session item) fun after =>
          Shifted session after (gain item) (fun _ => 0) ∧ relation (amount item) session after)
    (sound : session.Sound)
    (room : ∀ point, session.weigh (covers point) + (items.map fun item => gain item (covers point)).sum ≤ 1) :
    Settles (∀ item ∈ items, holds item) (items.foldlM step session) fun after =>
      Shifted session after (fun weight => (items.map fun item => gain item weight).sum) (fun _ => 0) ∧
        relation (items.map amount).sum session after := by
  induction items generalizing session with
  | nil => exact ⟨by simp, Shifted.refl sound, counts.refl session⟩
  | cons item rest ih =>
    simp only [map_cons, sum_cons, forall_mem_cons] at room each ⊢
    rw [foldlM_cons]
    refine ((each session).1 sound fun point => ?_).weaken (fun _ fails both => fails both.1) |>.bind ?_
    · have := room point
      omega
    rintro next ⟨first, grown, counted⟩
    refine ((ih (fun session => (each session).2) grown.sound fun point => ?_).weaken
      fun _ fails both => fails both.2).mono ?_
    · have := room point
      have := grown.weighs (covers_spread point)
      omega
    · rintro after ⟨others, more, rest⟩
      exact ⟨⟨first, others⟩, grown.trans more, counts.trans counted rest⟩

variable {insert : Session cpus → Nat × Nat → Checked (Session cpus)} {amount : Nat → M}

def Inserts (insert : Session cpus → Nat × Nat → Checked (Session cpus))
    (relation : M → Session cpus → Session cpus → Prop) (amount : Nat → M) : Prop :=
  ∀ (session : Session cpus) (addr order : Nat), session.Sound → sizeOfOrder order ∣ addr →
    (∀ point, session.weigh (covers point) + covers point addr (sizeOfOrder order) ≤ 1) →
    Settles (order < maxBuddyOrder) (insert session (addr, order)) fun after =>
      Shifted session after (fun weight => weight addr (sizeOfOrder order)) (fun _ => 0) ∧
        relation (amount order) session after

theorem insertAll_rule (counts : Counts relation) (inserts : Inserts insert relation amount)
    {chunks : List (Nat × Nat)} {addr size : Nat} (sound : session.Sound) (tiles : Tiles addr size chunks)
    (room : ∀ point, session.weigh (covers point) + covers point addr size ≤ 1) :
    Settles (∀ chunk ∈ chunks, chunk.2 < maxBuddyOrder) (chunks.foldlM insert session) fun after =>
      Shifted session after (fun weight => weight addr size) (fun _ => 0) ∧
        relation (chunks.map fun chunk => amount chunk.2).sum session after := by
  refine (foldlM_settles counts (fun chunk weight => weight chunk.1 (sizeOfOrder chunk.2)) (fun chunk => amount chunk.2)
    ?_ sound ?_).mono .rfl ?_
  · exact fun session chunk member sound room => inserts session _ _ sound (tiles.within chunk member).2.1 room
  · intro point
    rw [tiles.weigh (covers_spread point)]
    exact room point
  · exact fun after _ ⟨shifted, counted⟩ => ⟨shifted.congr fun spread => tiles.weigh spread, counted⟩

end Folds

theorem maxOrder_le (pool : PoolId cpus) : pool.maxOrder ≤ maxBuddyOrder := by
  cases pool with
  | ofCpu cpu => exact (by decide : maxLocalBuddyOrder ≤ maxBuddyOrder)
  | global => exact le_rfl

theorem insertGlobal_inserts : Inserts (fun (session : Session cpus) (addr, order) =>
    session.insertChunk .global addr order) (Grown .global) sizeOfOrder :=
  fun _ _ _ sound aligned room => insertChunk_rule sound aligned room

theorem deallocChunk_inserts (cpu : Fin cpus) : Inserts (deallocChunk cpu)
    (fun amount before after => sizes after cpu = sizes before cpu + amount) growth := by
  intro session addr order sound aligned room
  unfold deallocChunk growth sizes
  dsimp only
  split
  · refine (insertChunk_rule sound aligned room).mono .rfl fun after _ ⟨shifted, grown⟩ => ⟨shifted, ?_⟩
    rw [grown.size, grown.others _ (by simp)]
    rfl
  · rename_i small
    have bound : order < PoolId.maxOrder (.ofCpu cpu) := not_le.mp small
    refine (insertChunk_rule sound aligned room).mono (iff_of_true bound (bound.trans_le (maxOrder_le _))) ?_
    refine fun after _ ⟨shifted, grown⟩ => ⟨shifted, ?_⟩
    rw [grown.size, grown.others _ (by simp)]
    rfl

def Fits (segments : List (Nat × Nat)) : Prop :=
  ∀ segment ∈ segments, pageSize ∣ segment.1 ∧ pageSize ∣ segment.2 ∧
    ∀ chunks, splitToChunks segment.1 segment.2 = .ok chunks → ∀ chunk ∈ chunks, chunk.2 < maxBuddyOrder

theorem fits_of_small {segments : List (Nat × Nat)}
    (small : ∀ segment ∈ segments, pageSize ∣ segment.1 ∧ pageSize ∣ segment.2 ∧
      segment.2 < sizeOfOrder maxBuddyOrder) : Fits segments := by
  intro segment member
  obtain ⟨addrPage, sizePage, lt⟩ := small segment member
  refine ⟨addrPage, sizePage, fun chunks split chunk member => ?_⟩
  have within := ((splitToChunks_rule addrPage sizePage).of_ok split).within chunk member
  exact order_lt_of_sizeOfOrder_lt (by omega)

theorem split_settles {insert : Session cpus → Nat × Nat → Checked (Session cpus)} {post : Session cpus → Prop}
    {addr size : Nat} (addrPage : pageSize ∣ addr) (sizePage : pageSize ∣ size)
    (each : ∀ chunks, Tiles addr size chunks →
      Settles (∀ chunk ∈ chunks, chunk.2 < maxBuddyOrder) (chunks.foldlM insert session) post) :
    Settles (pageSize ∣ addr ∧ pageSize ∣ size ∧ ∀ chunks, splitToChunks addr size = .ok chunks →
      ∀ chunk ∈ chunks, chunk.2 < maxBuddyOrder)
      (do let chunks ← splitToChunks addr size; chunks.foldlM insert session) post := by
  obtain ⟨chunks, split, tiles⟩ := (splitToChunks_rule addrPage sizePage).exists_ok
  have given := each chunks tiles
  simpa only [addrPage, sizePage, split, bind_ok, Except.ok.injEq, forall_eq', true_and] using given

theorem doDealloc_rule (cpu : Fin cpus) {segments : List (Nat × Nat)} (sound : session.Sound)
    (pages : ∀ segment ∈ segments, pageSize ∣ segment.1 ∧ pageSize ∣ segment.2)
    (room : ∀ point, session.weigh (covers point) +
      (segments.map fun segment => covers point segment.1 segment.2).sum ≤ 1) :
    Settles (Fits segments) (session.doDealloc cpu segments) fun after =>
      Shifted session after (fun weight => (segments.map fun segment => weight segment.1 segment.2).sum)
        (fun _ => 0) ∧
        after.sizes cpu = session.sizes cpu + (segments.map fun segment => shares segment.1 segment.2).sum := by
  refine foldlM_settles (sizes_counts cpu) (fun (segment : Nat × Nat) weight => weight segment.1 segment.2) _ ?_
    sound room
  intro session segment member sound room
  refine split_settles (pages segment member).1 (pages segment member).2 fun chunks tiles => ?_
  rw [← tiles.shares]
  exact insertAll_rule (sizes_counts cpu) (deallocChunk_inserts cpu) sound tiles room

theorem Refused.drawn {pool other : PoolId cpus} {order addr : Nat} {next after : Session cpus}
    (refused : Refused other order session next) (drawn : Drawn pool order addr next after) :
    Drawn pool order addr session after where
  shifted := (refused.shifted.trans drawn.shifted).congr fun _ => by simp
  aligned := drawn.aligned
  serves := refused.sets ▸ drawn.serves
  size := refused.sets ▸ drawn.size
  others := refused.sets ▸ drawn.others

theorem takeChunk_rule (cpu : Fin cpus) (sound : session.Sound) (order : Nat) :
    Returns (session.takeChunk cpu order) fun (after, result) =>
      match result with
      | none => ¬(session.sets (.ofCpu cpu)).Serves order ∧ Refused .global order session after
      | some addr => Drawn (.ofCpu cpu) order addr session after ∨
          ¬(session.sets (.ofCpu cpu)).Serves order ∧ Drawn .global order addr session after := by
  unfold takeChunk
  refine meets_ite (fun small => ?_) fun large => ?_
  · refine (allocChunk_rule sound (.ofCpu cpu) order).bind ?_
    rintro ⟨next, result⟩ outcome
    cases result with
    | some addr => exact .inl outcome
    | none =>
      have first : Refused (.ofCpu cpu) order session next := outcome
      refine (allocChunk_rule first.shifted.sound .global order).mono ?_
      rintro ⟨after, result⟩ outcome
      cases result with
      | none =>
        have second : Refused .global order next after := outcome
        exact ⟨first.refused, (first.shifted.trans second.shifted).congr fun _ => rfl,
          first.sets ▸ second.refused, second.sets.trans first.sets⟩
      | some addr => exact .inr ⟨first.refused, first.drawn outcome⟩
  · have refused : ¬(session.sets (.ofCpu cpu)).Serves order :=
      fun ⟨_, bound, lower, _⟩ => large (lower.trans_lt bound)
    refine (allocChunk_rule sound .global order).mono ?_
    rintro ⟨after, result⟩ outcome
    cases result with
    | none => exact ⟨refused, outcome⟩
    | some addr => exact .inr ⟨refused, outcome⟩

theorem size_le_greaterOrderOf {size : Nat} (page : pageSize ∣ size) :
    size ≤ sizeOfOrder (greaterOrderOf size) := by
  obtain ⟨pages, rfl⟩ := page
  have positive : 0 < pageSize := by decide
  unfold greaterOrderOf sizeOfOrder
  rw [Nat.mul_div_cancel_left _ positive, Nat.mul_comm]
  refine mul_le_mul_right _ ?_
  dsimp only
  split
  · rename_i few
    rwa [pow_zero]
  · have := @Nat.lt_log2_self (pages - 1)
    omega

/-- The sizes of the pools once the layout has been taken. A chunk that the local pool serves is smaller than
the blocks of `shares`, so its tail goes back there. -/
def sizesAfter (session : Session cpus) (cpu : Fin cpus) (layout : Layout) : Nat × Nat :=
  let (globalSize, localSize) := session.sizes cpu
  if (session.sets (.ofCpu cpu)).Serves layout.order then (globalSize, localSize - layout.size)
  else if (session.sets .global).Serves layout.order then
    (globalSize - sizeOfOrder layout.order, localSize) +
      shares layout.size (sizeOfOrder layout.order - layout.size)
  else (globalSize, localSize)

theorem Drawn.giveBack {pool : PoolId cpus} {next : Session cpus} {addr order size : Nat} (sound : session.Sound)
    (drawn : Drawn pool order addr session next) (cpu : Fin cpus) (page : pageSize ∣ size)
    (le : size ≤ sizeOfOrder order) :
    Returns (next.doDealloc cpu [(addr + size, sizeOfOrder order - size)]) fun after =>
      Shifted session after (fun _ => 0) (fun weight => weight addr size) ∧
        after.sizes cpu = next.sizes cpu + shares size (sizeOfOrder order - size) := by
  have whole : ∀ {weight}, Spread weight → weight addr (sizeOfOrder order) =
      weight addr size + weight (addr + size) (sizeOfOrder order - size) := by
    intro weight spread
    rw [← spread, Nat.add_sub_cancel' le]
  obtain ⟨larger, bound, lower, _⟩ := drawn.serves
  have small : sizeOfOrder order < sizeOfOrder maxBuddyOrder :=
    sizeOfOrder_lt (lower.trans_lt (bound.trans_le (maxOrder_le pool)))
  have pages : pageSize ∣ addr + size ∧ pageSize ∣ sizeOfOrder order - size :=
    ⟨dvd_add ((pageSize_dvd_sizeOfOrder order).trans drawn.aligned) page,
      dvd_sub (pageSize_dvd_sizeOfOrder order) page⟩
  have fits : Fits [(addr + size, sizeOfOrder order - size)] :=
    fits_of_small (by simpa using ⟨pages.1, pages.2, by omega⟩)
  refine ((doDealloc_rule cpu drawn.shifted.sound (by simpa using pages) fun point => ?_).returns fits).mono ?_
  · have := drawn.shifted.weighs (covers_spread point)
    have := sound.apart point
    rw [whole (covers_spread point)] at *
    simp only [map_cons, map_nil, sum_cons, sum_nil]
    omega
  · rintro after ⟨returned, sizes⟩
    simp only [map_cons, map_nil, sum_cons, sum_nil, add_zero, shares_tail drawn.aligned] at *
    refine ⟨(drawn.shifted.trans returned).congr fun spread => ?_, sizes⟩
    rw [whole spread]
    omega

theorem takeLayout_rule (cpu : Fin cpus) (sound : session.Sound) (layout : Layout) :
    Returns (session.takeLayout cpu layout) fun (after, result) =>
      after.sizes cpu = session.sizesAfter cpu layout ∧ match result with
      | none => Shifted session after (fun _ => 0) fun _ => 0
      | some addr => sizeOfOrder layout.order ∣ addr ∧
          Shifted session after (fun _ => 0) fun weight => weight addr layout.size := by
  unfold takeLayout
  change Returns (session.takeChunk cpu layout.order >>= _) _
  have le : layout.size ≤ sizeOfOrder layout.order :=
    (size_le_greaterOrderOf layout.pages).trans (sizeOfOrder_mono (le_max_left _ _))
  refine (takeChunk_rule cpu sound layout.order).bind ?_
  rintro ⟨next, result⟩ outcome
  cases result with
  | none =>
    obtain ⟨notLocal, refused⟩ := outcome
    refine ⟨?_, refused.shifted⟩
    simp only [sizesAfter, if_neg notLocal, if_neg refused.refused, sizes, refused.sets]
  | some addr =>
    have returned : next.sizes cpu + shares layout.size (sizeOfOrder layout.order - layout.size) =
        session.sizesAfter cpu layout := by
      unfold sizesAfter sizes
      rcases outcome with drawn | ⟨refused, drawn⟩
      · obtain ⟨_, bound, lower, _⟩ := drawn.serves
        have small := sizeOfOrder_lt (lower.trans_lt bound)
        have := drawn.size
        rw [shares_of_lt ((Nat.sub_le _ _).trans_lt small), drawn.others _ (by simp)]
        simp only [if_pos drawn.serves, Prod.mk_add_mk, Prod.mk.injEq]
        omega
      · simp only [if_neg refused, if_pos drawn.serves, ← drawn.size, Nat.add_sub_cancel,
          drawn.others (.ofCpu cpu) (by simp)]
    obtain ⟨pool, drawn⟩ : ∃ pool, Drawn pool layout.order addr session next :=
      outcome.elim (fun drawn => ⟨_, drawn⟩) fun drawn => ⟨_, drawn.2⟩
    refine meets_ite (fun _ => ?_) fun exact => ?_
    · refine (drawn.giveBack sound cpu layout.pages le).bind ?_
      rintro after ⟨shifted, sizes⟩
      exact ⟨sizes.trans returned, drawn.aligned, shifted⟩
    · have same : sizeOfOrder layout.order = layout.size := Nat.le_antisymm (Nat.le_of_not_gt exact) le
      have shifted := drawn.shifted
      rw [same, Nat.sub_self, shares_of_lt (sizeOfOrder_pos _)] at returned
      rw [same] at shifted
      exact ⟨returned, drawn.aligned, shifted⟩

end Session

end Kei.FrameAllocator
