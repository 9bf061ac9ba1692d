import Kei.FrameAllocator.Partition

/-! A range is cut into as few chunks as possible: every aligned chunk that lies in the range
lies in one of the chunks of the cut. -/

namespace Kei.FrameAllocator

open Library Checked Nat

def Absorbs (addr size : Nat) (chunks : List (Nat × Nat)) : Prop :=
  ∀ low order, sizeOfOrder order ∣ low → addr ≤ low → low + sizeOfOrder order ≤ addr + size →
    ∃ chunk ∈ chunks, chunk.1 ≤ low ∧ low + sizeOfOrder order ≤ chunk.1 + sizeOfOrder chunk.2

namespace Tiles

theorem absorbs : ∀ {chunks : List (Nat × Nat)} {addr size : Nat}, Tiles addr size chunks → size < 2 ^ 64 →
    Absorbs addr size chunks := by
  intro chunks
  induction chunks with
  | nil =>
    rintro addr size rfl _ low order _ lower upper
    have := sizeOfOrder_pos order
    omega
  | cons first rest ih =>
    obtain ⟨start, largest⟩ := first
    rintro addr size ⟨rfl, aligned, le, most, later⟩ small low order block lower upper
    by_cases behind : start + sizeOfOrder largest ≤ low
    · obtain ⟨chunk, member, within⟩ := ih later (by omega) low order block behind (by omega)
      exact ⟨chunk, List.mem_cons_of_mem _ member, within⟩
    refine ⟨_, List.mem_cons_self, lower, ?_⟩
    dsimp only
    by_cases smaller : order ≤ largest
    · have part := sizeOfOrder_dvd smaller
      exact add_le_of_dvd block (dvd_add (part.trans aligned) part) (by omega)
    · have part : sizeOfOrder largest ∣ low := (sizeOfOrder_dvd (by omega)).trans block
      obtain rfl : start = low := by
        by_contra different
        have := add_le_of_dvd aligned part (by omega)
        omega
      have width : order + 12 ≤ 64 := by
        have below : 2 ^ (order + 12) < 2 ^ 64 := by
          rw [← sizeOfOrder_eq_two_pow]
          omega
        exact ((Nat.pow_lt_pow_iff_right (by omega)).mp below).le
      exact absurd (most order width block (by omega)) smaller

theorem ordered : ∀ {chunks : List (Nat × Nat)} {addr size : Nat}, Tiles addr size chunks →
    chunks.Pairwise fun first second => first.1 + sizeOfOrder first.2 ≤ second.1 := by
  intro chunks
  induction chunks with
  | nil => exact fun _ => List.Pairwise.nil
  | cons first rest ih =>
    rintro addr size ⟨rfl, _, _, _, later⟩
    exact List.pairwise_cons.mpr ⟨fun chunk member => (later.within chunk member).1, ih later⟩

theorem covers : ∀ {chunks : List (Nat × Nat)} {addr size : Nat}, Tiles addr size chunks →
    ∀ point ∈ range addr size, ∃ chunk ∈ chunks, point ∈ span chunk.1 chunk.2 := by
  intro chunks
  induction chunks with
  | nil =>
    rintro addr size rfl point ⟨lower, upper⟩
    omega
  | cons first rest ih =>
    rintro addr size ⟨rfl, _, le, _, later⟩ point ⟨lower, upper⟩
    by_cases here : point < first.1 + sizeOfOrder first.2
    · exact ⟨first, List.mem_cons_self, lower, here⟩
    · obtain ⟨chunk, member, inside⟩ := ih later point ⟨by omega, by omega⟩
      exact ⟨chunk, List.mem_cons_of_mem _ member, inside⟩

end Tiles

structure ChunkTiling (addr size : Nat) (chunks : List (Nat × Nat)) : Prop where
  aligned : ∀ chunk ∈ chunks, sizeOfOrder chunk.2 ∣ chunk.1
  apart : chunks.Pairwise fun first second => Disjoint (span first.1 first.2) (span second.1 second.2)
  covers : ∀ point, point ∈ range addr size ↔ ∃ chunk ∈ chunks, point ∈ span chunk.1 chunk.2

theorem first_mem_span (addr order : Nat) : addr ∈ span addr order :=
  ⟨le_rfl, Nat.lt_add_of_pos_right (sizeOfOrder_pos order)⟩

theorem Tiles.tiling {chunks : List (Nat × Nat)} {addr size : Nat} (tiles : Tiles addr size chunks) :
    ChunkTiling addr size chunks where
  aligned chunk member := (tiles.within chunk member).2.1
  apart := by
    refine tiles.ordered.imp fun below => Set.disjoint_left.mpr ?_
    rintro point ⟨_, upper⟩ ⟨lower, _⟩
    omega
  covers point := by
    refine ⟨tiles.covers point, ?_⟩
    rintro ⟨chunk, member, lower, upper⟩
    obtain ⟨above, -, below⟩ := tiles.within chunk member
    exact ⟨above.trans lower, by omega⟩

namespace ChunkTiling

variable {addr size : Nat} {chunks pieces : List (Nat × Nat)}

variable (tiling : ChunkTiling addr size chunks)
include tiling

theorem within {chunk : Nat × Nat} (member : chunk ∈ chunks) :
    addr ≤ chunk.1 ∧ chunk.1 + sizeOfOrder chunk.2 ≤ addr + size := by
  have positive := sizeOfOrder_pos chunk.2
  obtain ⟨lower, -⟩ := (tiling.covers chunk.1).mpr ⟨chunk, member, first_mem_span _ _⟩
  obtain ⟨-, upper⟩ := (tiling.covers (chunk.1 + sizeOfOrder chunk.2 - 1)).mpr
    ⟨chunk, member, by omega, by omega⟩
  exact ⟨lower, by omega⟩

theorem eq_of_mem {first second : Nat × Nat} (one : first ∈ chunks) (two : second ∈ chunks) {point : Nat}
    (here : point ∈ span first.1 first.2) (there : point ∈ span second.1 second.2) : first = second := by
  by_contra different
  have symmetric : Std.Symm fun first second : Nat × Nat => Disjoint (span first.1 first.2) (span second.1 second.2) :=
    ⟨fun _ _ apart => apart.symm⟩
  exact Set.disjoint_left.mp (tiling.apart.forall one two different) here there

theorem nodup : chunks.Nodup := by
  refine tiling.apart.imp ?_
  rintro first _ apart rfl
  exact Set.disjoint_left.mp apart (first_mem_span _ _) (first_mem_span _ _)

theorem length_le (absorbs : Absorbs addr size chunks) (other : ChunkTiling addr size pieces) :
    chunks.length ≤ pieces.length := by
  have starts : ∀ chunk ∈ chunks, ∃ piece ∈ pieces, chunk.1 ∈ span piece.1 piece.2 := fun chunk member =>
    (other.covers _).mp ((tiling.covers _).mpr ⟨chunk, member, first_mem_span _ _⟩)
  choose! piece listed start using starts
  have injective : Set.InjOn piece chunks.toFinset := by
    intro first one second two same
    rw [Finset.mem_coe, List.mem_toFinset] at one two
    obtain ⟨lower, upper⟩ := other.within (listed first one)
    obtain ⟨chunk, member, below, above⟩ := absorbs _ _ (other.aligned _ (listed first one)) lower upper
    have inside : ∀ point ∈ span (piece first).1 (piece first).2, point ∈ span chunk.1 chunk.2 :=
      fun point within => ⟨below.trans within.1, within.2.trans_le above⟩
    rw [tiling.eq_of_mem one member (first_mem_span _ _) (inside _ (start first one))]
    exact tiling.eq_of_mem member two (inside _ (same ▸ start second two)) (first_mem_span _ _)
  calc chunks.length = chunks.toFinset.card := (List.toFinset_card_of_nodup tiling.nodup).symm
    _ ≤ pieces.toFinset.card := Finset.card_le_card_of_injOn piece
        (fun chunk member => by simpa using listed chunk (by simpa using member)) injective
    _ ≤ pieces.length := pieces.toFinset_card_le

end ChunkTiling

/-- The chunks come in ascending order, tile the range, and no tiling of the range has fewer. -/
theorem splitToChunks_fewest {addr size : Nat} (addrPage : pageSize ∣ addr) (sizePage : pageSize ∣ size)
    (fits : addr + size < 2 ^ 64) :
    ∃ chunks, splitToChunks addr size = .ok chunks ∧
      chunks.Pairwise (fun first second => first.1 < second.1) ∧ ChunkTiling addr size chunks ∧
      ∀ pieces, ChunkTiling addr size pieces → chunks.length ≤ pieces.length := by
  obtain ⟨chunks, ran, tiles⟩ := (splitToChunks_rule addrPage sizePage).exists_ok
  refine ⟨chunks, ran, tiles.ordered.imp ?_, tiles.tiling,
    fun pieces => tiles.tiling.length_le (tiles.absorbs (by omega))⟩
  intro first second below
  have := sizeOfOrder_pos first.2
  omega

/-- Six pages from the second page on. -/
theorem splitToChunks_fewest_six : pageSize ∣ 4096 ∧ pageSize ∣ 24576 ∧ 4096 + 24576 < 2 ^ 64 ∧
    ∃ chunks, splitToChunks 4096 24576 = .ok chunks ∧ chunks.Pairwise (fun first second => first.1 < second.1) ∧
      ChunkTiling 4096 24576 chunks ∧
      ∀ pieces, ChunkTiling 4096 24576 pieces → chunks.length ≤ pieces.length :=
  ⟨by decide, by decide, by decide, splitToChunks_fewest (by decide) (by decide) (by decide)⟩

end Kei.FrameAllocator
