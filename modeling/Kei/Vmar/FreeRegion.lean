import Kei.Vmar.Mapping

/-! The search for a free region of an address space (`vmar_impls/mod.rs`): the holes between the
mappings are tried from the highest to the lowest. -/

namespace Kei.Vmar

open Library Checked List Nat

def initStackSize : Nat := 8 * 1024 * 1024

def alignDown (value align : Nat) : Checked Nat := do
  assert (align == 2 ^ align.log2 && decide (2 ≤ align))
  return value - value % align

def tryAllocInHole (holeStart holeEnd size align : Nat) : Checked (Option (Nat × Nat)) := do
  if size ≤ holeEnd then
    let start ← alignDown (holeEnd - size) align
    return if holeStart ≤ start then some (start, start + size) else none
  else return none

def lastHole (low high size align prevVmMappingStart : Nat) : Checked (Option (Nat × Nat)) := do
  if prevVmMappingStart > low then tryAllocInHole low (min prevVmMappingStart high) size align
  else return none

def searchHoles (low high size align : Nat) : List VmMapping → Nat → Checked (Option (Nat × Nat))
  | [], prevVmMappingStart => lastHole low high size align prevVmMappingStart
  | mapping :: rest, prevVmMappingStart => do
    match ← tryAllocInHole (max mapping.mapEnd low) (min prevVmMappingStart high) size align with
    | some region => return some region
    | none =>
      if mapping.mapToAddr ≤ low then lastHole low high size align mapping.mapToAddr
      else searchHoles low high size align rest mapping.mapToAddr

def highLimit : Nat := vmarCapAddr - initStackSize - pageSize * 2048

def allocFreeRegion (vmMappings : IntervalSet) (size align : Nat) : Checked (Option (Nat × Nat)) :=
  searchHoles vmarLowestAddr highLimit size align vmMappings.items.reverse highLimit

structure Fits (mappings : List VmMapping) (low high size align start : Nat) : Prop where
  low : low ≤ start
  high : start + size ≤ high
  aligned : align ∣ start
  free : ∀ mapping ∈ mappings, mapping.mapEnd ≤ start ∨ start + size ≤ mapping.mapToAddr

def Highest (size : Nat) (fits : Nat → Prop) : Option (Nat × Nat) → Prop
  | some (start, stop) => stop = start + size ∧ fits start ∧ ∀ other, fits other → other ≤ start
  | none => ∀ start, ¬fits start

structure Alignment (align : Nat) : Prop where
  power : ∃ shift, align = 2 ^ shift
  two : 2 ≤ align

variable {align size low high : Nat}

theorem alignDown_ok (alignment : Alignment align) (value : Nat) :
    alignDown value align = .ok (align * (value / align)) := by
  obtain ⟨⟨shift, rfl⟩, two⟩ := alignment
  have checked : (2 ^ shift == 2 ^ (2 ^ shift).log2 && decide (2 ≤ 2 ^ shift)) = true := by
    simp [log2_two_pow, two]
  rw [alignDown, assert, if_pos checked, bind_ok, mul_div_self_eq_mod_sub_self]
  rfl

theorem tryAllocInHole_returns (alignment : Alignment align) (holeStart holeEnd : Nat) :
    Returns (tryAllocInHole holeStart holeEnd size align) fun result =>
      Highest size (fun start => holeStart ≤ start ∧ start + size ≤ holeEnd ∧ align ∣ start) result := by
  have positive : 0 < align := lt_of_lt_of_le two_pos alignment.two
  unfold tryAllocInHole
  refine meets_ite (fun room => ?_) fun large => ?_
  · rw [alignDown_ok alignment, bind_ok]
    have rounded := mul_div_le (holeEnd - size) align
    have greatest : ∀ other, other + size ≤ holeEnd → align ∣ other →
      other ≤ align * ((holeEnd - size) / align) := by
      rintro _ fits ⟨factor, rfl⟩
      refine mul_le_mul_left _ ((le_div_iff_mul_le positive).mpr ?_)
      rw [mul_comm]
      omega
    show Highest size _ (if _ then _ else _)
    split
    next above =>
      exact ⟨rfl, ⟨above, by omega, dvd_mul_right _ _⟩, fun other ⟨_, fits, aligned⟩ =>
        greatest other fits aligned⟩
    next below =>
      rintro other ⟨above, fits, aligned⟩
      have := greatest other fits aligned
      omega
  · rintro other ⟨_, fits, _⟩
    omega

/-- The search has come down to `prev`: no region that fits reaches above it, and the mappings that are
left lie below those it has passed. -/
structure Descended (all rest : List VmMapping) (low high size align prev : Nat) : Prop where
  members : ∀ mapping ∈ rest, mapping ∈ all
  order : rest.Pairwise fun upper lower => lower.mapEnd ≤ upper.mapToAddr
  passed : ∀ mapping ∈ all, mapping ∈ rest ∨
    prev ≤ mapping.mapToAddr ∧ ∀ lower ∈ rest, lower.mapEnd ≤ mapping.mapToAddr
  bound : ∀ start, Fits all low high size align start → start + size ≤ min prev high

variable {all rest : List VmMapping} {mapping : VmMapping} {prev : Nat}

theorem Descended.hole (descended : Descended all (mapping :: rest) low high size align prev) {start : Nat}
    (above : max mapping.mapEnd low ≤ start) (below : start + size ≤ min prev high) (aligned : align ∣ start) :
    Fits all low high size align start := by
  refine ⟨by omega, by omega, aligned, fun other member => ?_⟩
  rcases descended.passed other member with left | ⟨higher, -⟩
  · rcases mem_cons.mp left with rfl | lower
    · exact .inl (by omega)
    · have apart := (pairwise_cons.mp descended.order).1 other lower
      exact .inl (by unfold VmMapping.mapEnd at above apart ⊢; omega)
  · exact .inr (by omega)

theorem Descended.next (descended : Descended all (mapping :: rest) low high size align prev)
    (none : ∀ start, Fits all low high size align start → start < max mapping.mapEnd low) :
    Descended all rest low high size align mapping.mapToAddr := by
  obtain ⟨lower, order⟩ := pairwise_cons.mp descended.order
  have member := descended.members mapping mem_cons_self
  refine ⟨fun other left => descended.members other (mem_cons_of_mem _ left), order, ?_, ?_⟩
  · intro other listed
    rcases descended.passed other listed with left | ⟨-, higher⟩
    · rcases mem_cons.mp left with rfl | left
      · exact .inr ⟨le_refl _, lower⟩
      · exact .inl left
    · have apart := higher mapping mem_cons_self
      refine .inr ⟨by unfold VmMapping.mapEnd at apart; omega, fun deeper left => ?_⟩
      exact higher deeper (mem_cons_of_mem _ left)
  · intro start fits
    have under := none start fits
    have above := fits.low
    have top := fits.high
    rcases fits.free mapping member with beyond | before
    · omega
    · omega

section

variable (alignment : Alignment align) (positive : 0 < size)
  (descended : Descended all rest low high size align prev)
include alignment positive descended

theorem lastHole_returns (last : rest = [] ∨ prev ≤ low) :
    Returns (lastHole low high size align prev) (Highest size (Fits all low high size align)) := by
  unfold lastHole
  refine meets_ite (fun above => ?_) fun none start fits => ?_
  · obtain rfl := last.resolve_right (by omega)
    have hole : ∀ start, Fits all low high size align start ↔
        low ≤ start ∧ start + size ≤ min prev high ∧ align ∣ start := by
      refine fun start => ⟨fun fits => ⟨fits.low, descended.bound start fits, fits.aligned⟩, ?_⟩
      rintro ⟨above, below, aligned⟩
      refine ⟨above, by omega, aligned, fun mapping member => .inr ?_⟩
      obtain ⟨higher, -⟩ := (descended.passed mapping member).resolve_left (by simp)
      omega
    rw [show Fits all low high size align = _ from funext fun start => propext (hole start)]
    exact tryAllocInHole_returns alignment _ _
  · have bound := descended.bound start fits
    have above := fits.low
    omega

theorem searchHoles_returns :
    Returns (searchHoles low high size align rest prev) (Highest size (Fits all low high size align)) := by
  induction rest generalizing prev with
  | nil => exact lastHole_returns alignment positive descended (.inl rfl)
  | cons mapping rest ih =>
    rw [searchHoles]
    refine (tryAllocInHole_returns alignment _ _).bind ?_
    rintro (_ | ⟨start, stop⟩) found
    · have under : ∀ start, Fits all low high size align start → start < max mapping.mapEnd low := by
        intro start fits
        by_contra above
        exact found start ⟨not_lt.mp above, descended.bound start fits, fits.aligned⟩
      have next := descended.next under
      exact meets_ite (fun bottom => lastHole_returns alignment positive next (.inr bottom)) fun _ => ih next
    · obtain ⟨rfl, ⟨above, below, aligned⟩, highest⟩ := found
      refine ⟨rfl, descended.hole above below aligned, fun other fits => ?_⟩
      by_cases hole : max mapping.mapEnd low ≤ other
      · exact highest other ⟨hole, descended.bound other fits, fits.aligned⟩
      · omega

end

abbrev IntervalSet.Fits (vmMappings : IntervalSet) (size align start : Nat) : Prop :=
  Vmar.Fits vmMappings.items vmarLowestAddr highLimit size align start

/-- An alignment of one byte is a power of two, but no alignment for `align_down`. -/
theorem allocFreeRegion_unaligned : ∃ panic, allocFreeRegion ⟨[], .nil⟩ pageSize 1 = .error panic :=
  ⟨_, rfl⟩

theorem allocFreeRegion_exact (vmMappings : IntervalSet) (size align : Nat) (positive : 0 < size)
    (alignment : Alignment align) :
    ∃ result, allocFreeRegion vmMappings size align = .ok result ∧
      Highest size (vmMappings.Fits size align) result := by
  refine (searchHoles_returns alignment positive ?_).exists_ok
  refine ⟨fun _ => mem_reverse.mp, pairwise_reverse.mpr vmMappings.disjoint, ?_, ?_⟩
  · exact fun mapping member => .inl (mem_reverse.mpr member)
  · intro start fits
    rw [min_self]
    exact fits.high

def lastPageTaken : IntervalSet := ⟨[{ mapToAddr := highLimit - pageSize }], pairwise_singleton _ _⟩

theorem allocFreeRegion_exact_two : ∃ result, allocFreeRegion lastPageTaken (2 * pageSize) pageSize = .ok result ∧
    Highest (2 * pageSize) (lastPageTaken.Fits (2 * pageSize) pageSize) result :=
  allocFreeRegion_exact _ _ _ (by decide) ⟨⟨12, rfl⟩, by decide⟩

end Kei.Vmar
