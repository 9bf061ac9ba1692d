import Kei.Boot.MemoryRegion
import Kei.Library.Segments
import Mathlib.Data.Finset.Lattice.Fold

/-! What a memory map without overlaps has to be, and that the sweep over the boundaries of the
aligned regions makes one: between two boundaries no region begins or ends. -/

namespace Kei.Boot

open Library Segments Checked MemoryRegionArray List Nat

def roundUp (address : Nat) : Nat := (address + (pageSize - 1)) / pageSize * pageSize

theorem alignDown_le (address : Nat) : alignDown address ≤ address := div_mul_le_self address pageSize

theorem le_roundUp (address : Nat) : address ≤ roundUp address := by
  unfold roundUp pageSize
  omega

theorem roundUp_le (address : Nat) : roundUp address ≤ alignDown address + pageSize := by
  unfold roundUp alignDown pageSize
  omega

theorem alignDown_mono {low high : Nat} (order : low ≤ high) : alignDown low ≤ alignDown high :=
  Nat.mul_le_mul_right pageSize (Nat.div_le_div_right order)

theorem alignUp_ok {address : Nat} (room : address + (pageSize - 1) ≤ usizeMax) :
    alignUp address = .ok (roundUp address) := by
  rw [alignUp, add_ok room]
  rfl

namespace MemoryRegion

def stop (region : MemoryRegion) : Nat := region.base + region.len

def pageStart (region : MemoryRegion) : Nat :=
  if region.typ = .usable then roundUp region.base else alignDown region.base

def pageEnd (region : MemoryRegion) : Nat :=
  if region.typ = .usable then alignDown region.stop else roundUp region.stop

def Covers (region : MemoryRegion) (address : Nat) : Prop := region.pageStart ≤ address ∧ address < region.pageEnd

def Alignable (region : MemoryRegion) : Prop :=
  if region.typ = .usable then region.pageStart ≤ region.pageEnd else region.stop + (pageSize - 1) ≤ usizeMax

def aligned (region : MemoryRegion) : MemoryRegion :=
  ⟨region.pageStart, region.pageEnd - region.pageStart, region.typ⟩

instance (region : MemoryRegion) : Decidable region.Alignable := by unfold Alignable; infer_instance

variable {region : MemoryRegion}

theorem asAligned_ok (fits : region.stop ≤ usizeMax) (alignable : region.Alignable) :
    region.asAligned = .ok region.aligned := by
  have ends : region.regionEnd = .ok region.stop := add_ok fits
  have below := alignDown_le region.stop
  have above := le_roundUp region.base
  unfold Alignable pageStart pageEnd at alignable
  unfold asAligned aligned pageStart pageEnd
  by_cases usable : region.typ = .usable
  · simp only [usable, if_true] at alignable ⊢
    have room : region.base + (pageSize - 1) ≤ usizeMax := by
      unfold roundUp alignDown pageSize usizeMax at *
      omega
    rw [alignUp_ok room, ends]
    simp only [bind_ok, pure_eq_ok, sub_ok alignable]
  · simp only [usable, if_false] at alignable ⊢
    have order : alignDown region.base ≤ roundUp region.stop :=
      (alignDown_le _).trans ((le_add_right _ _).trans (le_roundUp _))
    rw [ends, bind_ok, alignUp_ok alignable]
    simp only [bind_ok, pure_eq_ok, sub_ok order]

theorem alignable_of_asAligned {region after : MemoryRegion} (fits : region.stop ≤ usizeMax)
    (ran : region.asAligned = .ok after) : region.Alignable := by
  have ends : region.regionEnd = .ok region.stop := add_ok fits
  unfold Alignable pageStart pageEnd
  unfold asAligned at ran
  by_cases usable : region.typ = .usable
  · simp only [usable, if_true] at ran ⊢
    obtain ⟨base, up, ran⟩ := bind_eq_ok.mp ran
    obtain ⟨padded, sum, rounded⟩ := bind_eq_ok.mp up
    obtain ⟨_, rfl⟩ := (add_yields _ _ _).of_ok sum
    obtain rfl := Except.ok.inj rounded
    rw [ends, bind_ok] at ran
    obtain ⟨len, difference, _⟩ := bind_eq_ok.mp ran
    exact ((sub_ensures _ _).of_ok difference).1
  · simp only [usable, if_false] at ran ⊢
    rw [ends, bind_ok] at ran
    obtain ⟨after, up, _⟩ := bind_eq_ok.mp ran
    obtain ⟨padded, sum, _⟩ := bind_eq_ok.mp up
    exact ((add_yields _ _ _).of_ok sum).1

theorem pageStart_le (alignable : region.Alignable) : region.pageStart ≤ region.pageEnd := by
  unfold Alignable at alignable
  split at alignable
  · exact alignable
  · rename_i other
    rw [pageStart, pageEnd, if_neg other, if_neg other]
    exact (alignDown_le _).trans ((le_add_right _ _).trans (le_roundUp _))

theorem pageEnd_le (fits : region.stop ≤ usizeMax) (alignable : region.Alignable) :
    region.pageEnd ≤ usizeMax := by
  unfold Alignable at alignable
  unfold pageEnd
  split
  · exact (alignDown_le _).trans fits
  · rename_i other
    rw [if_neg other] at alignable
    exact (div_mul_le_self _ _).trans alignable

theorem covers_of_mem {address : Nat} (other : region.typ ≠ .usable)
    (above : region.base ≤ address) (below : address < region.stop) : region.Covers address := by
  rw [Covers, pageStart, pageEnd, if_neg other, if_neg other]
  exact ⟨(alignDown_le _).trans above, below.trans_le (le_roundUp _)⟩

theorem alignDown_le_pageEnd (region : MemoryRegion) : alignDown region.stop ≤ region.pageEnd := by
  unfold pageEnd
  split
  · exact le_refl _
  · exact (alignDown_le _).trans (le_roundUp _)

theorem pageEnd_le_alignDown_add (region : MemoryRegion) : region.pageEnd ≤ alignDown region.stop + pageSize := by
  unfold pageEnd
  split
  · exact le_add_right _ _
  · exact roundUp_le _

theorem pageSize_dvd (region : MemoryRegion) : pageSize ∣ region.pageStart ∧ pageSize ∣ region.pageEnd := by
  unfold pageStart pageEnd
  split
  · exact ⟨dvd_mul_left _ _, dvd_mul_left _ _⟩
  · exact ⟨dvd_mul_left _ _, dvd_mul_left _ _⟩

end MemoryRegion

section Map

open MemoryRegion

variable (regions : List MemoryRegion)

def Reported (address : Nat) (typ : MemoryRegionType) : Prop :=
  (typ = .unknown ∧ ∀ region ∈ regions, ¬region.Covers address) ∨
    (∃ region ∈ regions, region.Covers address ∧ region.typ = typ) ∧
      ∀ region ∈ regions, region.Covers address → typ ≤ region.typ

def lastEnd : Nat := (regions.map pageEnd).foldr max 0

structure Normal (result : List MemoryRegion) : Prop where
  tiles : Tiles base stop 0 (lastEnd regions) result
  sorted : result.Pairwise fun one other => one.stop ≤ other.base
  types : Labelled base stop typ (Reported regions) result
  usable : ∀ entry ∈ result, entry.typ = .usable → ∀ region ∈ regions, region.typ ≠ .usable →
    ∀ address, entry.base ≤ address → address < entry.stop →
      ¬(region.base ≤ address ∧ address < region.stop)
  differ : result.IsChain fun one other => one.typ ≠ other.typ

def edges : Finset Nat := (regions.map pageStart ++ regions.map pageEnd).toFinset

def maxAddr : Nat := alignDown ((regions.map stop).max?.getD 0)

def turns : Nat :=
  ((edges regions).filter fun edge => 0 < edge ∧ edge < maxAddr regions).card + if 0 < maxAddr regions then 1 else 0

def LastPage : Prop :=
  lastEnd regions ≤ maxAddr regions ∨ 0 < maxAddr regions ∧ maxAddr regions ∉ edges regions

instance : Decidable (LastPage regions) := by unfold LastPage; infer_instance

variable {regions}

theorem mem_edges {edge : Nat} :
    edge ∈ edges regions ↔ ∃ region ∈ regions, edge = region.pageStart ∨ edge = region.pageEnd := by
  simp only [edges, mem_toFinset, mem_append, mem_map]
  constructor
  · rintro (⟨region, member, rfl⟩ | ⟨region, member, rfl⟩)
    · exact ⟨region, member, .inl rfl⟩
    · exact ⟨region, member, .inr rfl⟩
  · rintro ⟨region, member, rfl | rfl⟩
    · exact .inl ⟨region, member, rfl⟩
    · exact .inr ⟨region, member, rfl⟩

variable {region : MemoryRegion}

theorem pageEnd_le_lastEnd (member : region ∈ regions) : region.pageEnd ≤ lastEnd regions := by
  unfold lastEnd
  induction regions with
  | nil => cases member
  | cons first rest ih =>
    simp only [map_cons, foldr_cons]
    rcases mem_cons.mp member with rfl | later
    · exact le_max_left _ _
    · exact (ih later).trans (le_max_right _ _)

theorem lastEnd_le {bound : Nat} (each : ∀ region ∈ regions, region.pageEnd ≤ bound) :
    lastEnd regions ≤ bound := by
  unfold lastEnd
  induction regions with
  | nil => exact zero_le _
  | cons first rest ih =>
    obtain ⟨one, others⟩ := forall_mem_cons.mp each
    exact Nat.max_le.mpr ⟨one, ih others⟩

theorem stop_le_max (member : region ∈ regions) : region.stop ≤ (regions.map stop).max?.getD 0 := by
  cases found : (regions.map stop).max? with
  | none =>
    rw [List.max?_eq_none_iff, map_eq_nil_iff] at found
    subst found
    cases member
  | some top =>
    rw [List.max?_eq_some_iff] at found
    exact found.2 _ (mem_map_of_mem member)

theorem lastEnd_le_maxAddr_add (regions : List MemoryRegion) : lastEnd regions ≤ maxAddr regions + pageSize := by
  apply lastEnd_le
  intro region member
  have down := alignDown_mono (stop_le_max member)
  have near := region.pageEnd_le_alignDown_add
  unfold maxAddr
  omega

theorem exists_edge_ge (positive : 0 < maxAddr regions) : ∃ edge ∈ edges regions, maxAddr regions ≤ edge := by
  cases found : (regions.map stop).max? with
  | none =>
    rw [maxAddr, found, Option.getD_none] at positive
    exact absurd positive (by decide)
  | some top =>
    rw [List.max?_eq_some_iff, mem_map] at found
    obtain ⟨⟨region, member, rfl⟩, most⟩ := found
    refine ⟨region.pageEnd, mem_edges.mpr ⟨region, member, .inr rfl⟩, ?_⟩
    rw [maxAddr, List.max?_eq_some_iff.mpr ⟨mem_map_of_mem member, most⟩, Option.getD_some]
    exact region.alignDown_le_pageEnd

theorem stop_aligned (alignable : region.Alignable) : region.aligned.stop = region.pageEnd :=
  Nat.add_sub_cancel' (pageStart_le alignable)

theorem edge_le_lastEnd (alignable : ∀ region ∈ regions, region.Alignable) {edge : Nat}
    (member : edge ∈ edges regions) : edge ≤ lastEnd regions := by
  obtain ⟨region, listed, rfl | rfl⟩ := mem_edges.mp member
  · exact (pageStart_le (alignable region listed)).trans (pageEnd_le_lastEnd listed)
  · exact pageEnd_le_lastEnd listed

variable {low high address : Nat}

theorem covers_congr (member : region ∈ regions)
    (next : ∀ edge ∈ edges regions, low < edge → high ≤ edge) (above : low ≤ address)
    (below : address < high) :
    region.Covers address ↔ region.Covers low := by
  have start := next region.pageStart (mem_edges.mpr ⟨region, member, .inl rfl⟩)
  have ends := next region.pageEnd (mem_edges.mpr ⟨region, member, .inr rfl⟩)
  unfold Covers
  omega

theorem Reported.congr {typ : MemoryRegionType} (reported : Reported regions low typ)
    (next : ∀ edge ∈ edges regions, low < edge → high ≤ edge) (above : low ≤ address)
    (below : address < high) :
    Reported regions address typ := by
  have same : ∀ region ∈ regions, region.Covers address ↔ region.Covers low :=
    fun region member => covers_congr member next above below
  rcases reported with ⟨rfl, none⟩ | ⟨⟨region, member, covers, typed⟩, least⟩
  · exact .inl ⟨rfl, fun region member covers => none region member ((same region member).mp covers)⟩
  · refine .inr ⟨⟨region, member, (same region member).mpr covers, typed⟩, fun other listed covers => ?_⟩
    exact least other listed ((same other listed).mp covers)

section Sweep

variable (fits : ∀ region ∈ regions, region.stop ≤ usizeMax)
  (alignable : ∀ region ∈ regions, region.Alignable)
include fits alignable

theorem lastEnd_le_usizeMax : lastEnd regions ≤ usizeMax :=
  lastEnd_le fun region member => pageEnd_le (fits region member) (alignable region member)

theorem regionEnd_aligned {region : MemoryRegion} (member : region ∈ regions) :
    region.aligned.regionEnd = .ok region.pageEnd := by
  have order := pageStart_le (alignable region member)
  have bound := pageEnd_le (fits region member) (alignable region member)
  rw [regionEnd, aligned, add_ok (by dsimp only; omega)]
  exact congrArg _ (Nat.add_sub_cancel' order)

theorem restrictiveType_ok (curRight : Nat) :
    ∃ typ, restrictiveType (regions.map aligned) curRight = .ok typ ∧
      Reported regions curRight typ := by
  let shown (region : MemoryRegion) : Option MemoryRegionType :=
    if region.base ≤ curRight ∧ curRight < region.stop then some region.typ else none
  have ran : restrictiveType (regions.map aligned) curRight =
      .ok (((regions.map aligned).filterMap shown).min?.getD .unknown) := by
    unfold restrictiveType
    rw [filterMapM_ok (g := shown)]
    · rfl
    · intro span listed
      obtain ⟨region, member, rfl⟩ := mem_map.mp listed
      simp only [regionEnd_aligned fits alignable member, stop_aligned (alignable region member), shown,
        bind_ok, pure_eq_ok]
  have kept : ∀ typ, typ ∈ (regions.map aligned).filterMap shown ↔
      ∃ region ∈ regions, region.Covers curRight ∧ region.typ = typ := by
    intro typ
    rw [filterMap_map, mem_filterMap]
    refine exists_congr fun region => and_congr_right fun member => ?_
    simp only [Function.comp, shown, stop_aligned (alignable region member), Option.ite_none_right_eq_some,
      Option.some.injEq, Covers]
    rfl
  refine ⟨_, ran, ?_⟩
  cases found : ((regions.map aligned).filterMap shown).min? with
  | none =>
    rw [List.min?_eq_none_iff] at found
    refine .inl ⟨rfl, fun region member covers => ?_⟩
    have typ := (kept region.typ).mpr ⟨region, member, covers, rfl⟩
    rw [found] at typ
    cases typ
  | some typ =>
    rw [List.min?_eq_some_iff] at found
    refine .inr ⟨(kept typ).mp found.1, fun region member covers => ?_⟩
    exact found.2 _ ((kept region.typ).mpr ⟨region, member, covers, rfl⟩)

theorem rightBoundary_ok (curRight : Nat) (later : ∃ edge ∈ edges regions, curRight < edge) :
    ∃ right, rightBoundary (regions.map aligned) curRight = .ok right ∧
      right ∈ edges regions ∧ curRight < right ∧ ∀ edge ∈ edges regions, curRight < edge →
        right ≤ edge := by
  let shown (region : MemoryRegion) : Option Nat :=
    if region.base > curRight then some region.base else if region.stop > curRight then some region.stop else none
  have ran : rightBoundary (regions.map aligned) curRight =
      unwrap ((regions.map aligned).filterMap shown).min? := by
    unfold rightBoundary
    rw [filterMapM_ok (g := shown)]
    · rfl
    · intro span listed
      obtain ⟨region, member, rfl⟩ := mem_map.mp listed
      simp only [regionEnd_aligned fits alignable member, stop_aligned (alignable region member), shown,
        bind_ok, pure_eq_ok]
      split <;> rfl
  have kept : ∀ bound ∈ (regions.map aligned).filterMap shown, bound ∈ edges regions ∧ curRight < bound := by
    intro bound listed
    rw [filterMap_map, mem_filterMap] at listed
    obtain ⟨region, member, listed⟩ := listed
    simp only [Function.comp, shown, stop_aligned (alignable region member)] at listed
    split at listed
    case isTrue past =>
      obtain rfl := Option.some.inj listed
      exact ⟨mem_edges.mpr ⟨region, member, .inl rfl⟩, past⟩
    case isFalse =>
      obtain ⟨past, same⟩ := Option.ite_none_right_eq_some.mp listed
      obtain rfl := Option.some.inj same
      exact ⟨mem_edges.mpr ⟨region, member, .inr rfl⟩, past⟩
  have nearest : ∀ edge ∈ edges regions, curRight < edge →
      ∃ bound ∈ (regions.map aligned).filterMap shown, bound ≤ edge := by
    intro edge listed past
    obtain ⟨region, member, which⟩ := mem_edges.mp listed
    have order := pageStart_le (alignable region member)
    have base : region.aligned.base = region.pageStart := rfl
    rcases lt_or_ge curRight region.pageStart with before | within
    · refine ⟨region.pageStart, ?_, by omega⟩
      rw [filterMap_map, mem_filterMap]
      exact ⟨region, member, by simp only [Function.comp, shown, base, gt_iff_lt, before, if_true]⟩
    · refine ⟨region.pageEnd, ?_, by omega⟩
      rw [filterMap_map, mem_filterMap]
      refine ⟨region, member, ?_⟩
      simp only [Function.comp, shown, base, stop_aligned (alignable region member)]
      rw [if_neg (by omega), if_pos (by omega)]
  cases found : ((regions.map aligned).filterMap shown).min? with
  | none =>
    rw [List.min?_eq_none_iff] at found
    obtain ⟨edge, listed, past⟩ := later
    obtain ⟨bound, listed, _⟩ := nearest edge listed past
    rw [found] at listed
    cases listed
  | some right =>
    rw [found] at ran
    rw [List.min?_eq_some_iff] at found
    obtain ⟨own, past⟩ := kept right found.1
    refine ⟨right, ran, own, past, fun edge listed after => ?_⟩
    obtain ⟨bound, listed, below⟩ := nearest edge listed after
    exact (found.2 bound listed).trans below

end Sweep

end Map

end Kei.Boot
