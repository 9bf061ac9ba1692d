import Kei.Boot.MemoryMap
import Mathlib.Data.Nat.Count

/-! The sweep fills the slots of the result from boundary to boundary, and the merge joins
neighbours of one type in place. -/

namespace Kei.Boot

open Library Segments MemoryRegion Checked
open Nat hiding count
open List hiding count

namespace MemoryRegionArray

def filled (len : Nat) (regions : List MemoryRegion) : MemoryRegionArray :=
  ⟨regions ++ replicate (len - regions.length) .bad, regions.length⟩

theorem length_filled {len : Nat} {regions : List MemoryRegion} (room : regions.length ≤ len) :
    (filled len regions).regions.length = len := by
  rw [filled, length_append, length_replicate]
  omega

theorem push_filled {len : Nat} {regions : List MemoryRegion} (room : regions.length < len) (region : MemoryRegion) :
    (filled len regions).push region = some (filled len (regions ++ [region])) := by
  obtain ⟨spare, rfl⟩ : ∃ spare, len = regions.length + (spare + 1) := ⟨len - regions.length - 1, by omega⟩
  have left : regions.length + (spare + 1) - regions.length = spare + 1 := by omega
  have less : regions.length + (spare + 1) - (regions ++ [region]).length = spare := by
    rw [length_append, length_singleton]
    omega
  rw [push, length_filled (by omega), if_neg (by dsimp only [filled]; omega)]
  unfold filled
  rw [left, less]
  simp only [replicate_succ, set_append_right _ _ (Nat.le_refl _), Nat.sub_self, set_cons_zero,
    append_assoc, singleton_append, length_append, length_singleton]

theorem push_full {regions : List MemoryRegion} (region : MemoryRegion) :
    (filled regions.length regions).push region = none := by
  rw [push, length_filled (le_refl _)]
  exact if_pos (le_refl _)

theorem collect_eq {len : Nat} {regions : List MemoryRegion} {array : MemoryRegionArray}
    (built : collect len regions = some array) : regions.length ≤ len ∧ array = filled len regions := by
  have general : ∀ (rest done : List MemoryRegion), done.length ≤ len →
      rest.foldlM push (filled len done) = some array →
      (done ++ rest).length ≤ len ∧ array = filled len (done ++ rest) := by
    intro rest
    induction rest with
    | nil =>
      intro done room built
      rw [append_nil]
      exact ⟨room, (Option.some.inj built).symm⟩
    | cons region rest ih =>
      intro done room built
      rw [foldlM_cons] at built
      rcases lt_or_ge done.length len with less | full
      · rw [push_filled less] at built
        have rest := ih (done ++ [region]) (by simp; omega) built
        rwa [append_assoc] at rest
      · obtain rfl : done.length = len := le_antisymm room full
        rw [push_full] at built
        exact absurd built (by simp)
  exact general regions [] (zero_le _) built

theorem deref_filled (len : Nat) (regions : List MemoryRegion) : (filled len regions).deref = .ok regions := by
  rw [deref, filled, slice_ok (zero_le _) (by simp)]
  simp

end MemoryRegionArray

open MemoryRegionArray

section Sweep

variable {regions : List MemoryRegion}

/-- A boundary is the only one up to it that is not among those before. -/
theorem card_upTo {edges : Finset Nat} {top : Nat} {before : Nat → Prop} [DecidablePred before] (edge : top ∈ edges)
    (positive : 0 < top) (next : ∀ other ∈ edges, ¬before other → top ≤ other)
    (less : ∀ other, before other → other < top) :
    (edges.filter fun other => 0 < other ∧ other ≤ top).card =
      (edges.filter fun other => 0 < other ∧ before other).card + 1 := by
  have split : (edges.filter fun other => 0 < other ∧ other ≤ top) =
      insert top (edges.filter fun other => 0 < other ∧ before other) := by
    ext other
    simp only [Finset.mem_filter, Finset.mem_insert]
    constructor
    · rintro ⟨member, above, bound⟩
      by_cases earlier : before other
      · exact .inr ⟨member, above, earlier⟩
      · exact .inl (le_antisymm bound (next other member earlier))
    · rintro (rfl | ⟨member, above, earlier⟩)
      · exact ⟨edge, positive, le_refl _⟩
      · exact ⟨member, above, (less other earlier).le⟩
  rw [split, Finset.card_insert_of_notMem]
  exact fun member => lt_irrefl top (less top (Finset.mem_filter.mp member).2.2)

structure Swept (regions done : List MemoryRegion) (curRight : Nat) : Prop where
  tiles : Tiles base stop 0 curRight done
  types : Labelled base stop typ (Reported regions) done
  count : done.length = ((edges regions).filter fun edge => 0 < edge ∧ edge ≤ curRight).card
  edge : curRight = 0 ∨ curRight ∈ edges regions ∧ 0 < maxAddr regions
  near : ∀ edge ∈ edges regions, maxAddr regions ≤ edge → curRight ≤ edge

theorem swept_nil : Swept regions [] 0 := by
  refine ⟨rfl, by simp [Labelled], ?_, .inl rfl, fun _ _ _ => zero_le _⟩
  rw [Finset.filter_false_of_mem fun edge _ both => by omega]
  rfl

variable {done : List MemoryRegion}

theorem Swept.push {curRight right : Nat} {typ : MemoryRegionType}
    (swept : Swept regions done curRight) (below : curRight < maxAddr regions)
    (reported : Reported regions curRight typ) (edge : right ∈ edges regions) (past : curRight < right)
    (next : ∀ edge ∈ edges regions, curRight < edge → right ≤ edge) :
    Swept regions (done ++ [⟨curRight, right - curRight, typ⟩]) right := by
  have ends : curRight + (right - curRight) = right := Nat.add_sub_cancel' past.le
  refine ⟨?_, ?_, ?_, .inr ⟨edge, by omega⟩, ?_⟩
  · rw [tiles_concat]
    simp only [stop, ends]
    exact ⟨swept.tiles, past.le, trivial⟩
  · rw [labelled_concat]
    refine ⟨swept.types, fun address above before => ?_⟩
    simp only [stop, ends] at above before
    exact reported.congr next above before
  · have count := card_upTo edge (by omega) (fun other member later => next other member (not_le.mp later))
      fun _ earlier => lt_of_le_of_lt earlier past
    rw [count, ← swept.count, length_append, length_singleton]
  · intro other member far
    exact next other member (below.trans_le far)

variable {curRight : Nat}

theorem Swept.length_lt (swept : Swept regions done curRight)
    (below : curRight < maxAddr regions) : done.length < turns regions := by
  have within : ((edges regions).filter fun edge => 0 < edge ∧ edge ≤ curRight) ⊆
      (edges regions).filter fun edge => 0 < edge ∧ edge < maxAddr regions := by
    intro edge member
    simp only [Finset.mem_filter] at member ⊢
    exact ⟨member.1, member.2.1, by omega⟩
  have fewer := Finset.card_le_card within
  rw [turns, if_pos (by omega), swept.count]
  omega

theorem Swept.length_eq (swept : Swept regions done curRight)
    (far : maxAddr regions ≤ curRight) : done.length = turns regions := by
  rw [swept.count, turns]
  rcases swept.edge with rfl | ⟨edge, positive⟩
  · have zero : maxAddr regions = 0 := by omega
    rw [zero, if_neg (lt_irrefl 0), add_zero]
    refine congrArg _ (Finset.filter_congr fun edge _ => ?_)
    omega
  · rw [if_pos positive]
    exact card_upTo edge (by omega) (fun other member later => swept.near other member (not_lt.mp later))
      fun _ earlier => lt_of_lt_of_le earlier far

theorem Swept.lastEnd_iff (swept : Swept regions done curRight)
    (alignable : ∀ region ∈ regions, region.Alignable) (far : maxAddr regions ≤ curRight) :
    curRight = lastEnd regions ↔ LastPage regions := by
  have bound : curRight ≤ lastEnd regions := by
    rcases swept.edge with rfl | ⟨edge, _⟩
    · exact zero_le _
    · exact edge_le_lastEnd alignable edge
  unfold LastPage
  constructor
  · rintro rfl
    by_contra cut
    obtain ⟨more, cut⟩ := not_or.mp cut
    rcases swept.edge with zero | ⟨_, positive⟩
    · omega
    · have edge : maxAddr regions ∈ edges regions := by
        by_contra absent
        exact cut ⟨positive, absent⟩
      have near := swept.near _ edge (le_refl _)
      omega
  · rintro (less | ⟨positive, inner⟩)
    · omega
    · rcases swept.edge with zero | ⟨edge, _⟩
      · omega
      · have apart : curRight ≠ maxAddr regions := fun same => inner (same ▸ edge)
        have near := lastEnd_le_maxAddr_add regions
        have multiple : pageSize ∣ curRight := by
          obtain ⟨region, _, rfl | rfl⟩ := mem_edges.mp edge
          · exact region.pageSize_dvd.1
          · exact region.pageSize_dvd.2
        have whole : pageSize ∣ maxAddr regions := dvd_mul_left _ _
        obtain ⟨pages, rfl⟩ := multiple
        obtain ⟨least, same⟩ := whole
        rw [same] at apart far near
        have step : least < pages := by
          rcases lt_or_ge least pages with less | more
          · exact less
          · exact absurd (le_antisymm (mul_le_mul_left _ more) far) apart
        have reach : pageSize * least + pageSize ≤ pageSize * pages := mul_le_mul_left pageSize step
        omega

theorem sweep_meets (len : Nat) (fits : ∀ region ∈ regions, region.stop ≤ usizeMax)
    (alignable : ∀ region ∈ regions, region.Alignable) (fuel : Nat) (done : List MemoryRegion) (curRight : Nat)
    (swept : Swept regions done curRight) (room : done.length ≤ len) (enough : len < done.length + fuel) :
    Checked.Meets (fun _ => len < turns regions)
      (sweep (regions.map aligned) (maxAddr regions) fuel (filled len done) curRight) fun result =>
        ∃ done curRight, result = filled len done ∧ done.length ≤ len ∧ Swept regions done curRight ∧
          maxAddr regions ≤ curRight := by
  induction fuel generalizing done curRight with
  | zero => omega
  | succ fuel ih =>
    rw [sweep]
    split
    case isFalse far => exact ⟨done, curRight, rfl, room, swept, not_lt.mp far⟩
    case isTrue below =>
      obtain ⟨edge, member, far⟩ := @exists_edge_ge regions (by omega)
      obtain ⟨typ, typed, reported⟩ := restrictiveType_ok fits alignable curRight
      obtain ⟨right, found, own, past, next⟩ :=
        rightBoundary_ok fits alignable curRight ⟨edge, member, by omega⟩
      rw [typed, bind_ok, found, bind_ok, sub_ok past.le, bind_ok]
      have grows := swept.length_lt below
      rcases lt_or_ge done.length len with less | full
      · rw [push_filled less, unwrap, bind_ok]
        exact ih _ _ (swept.push below reported own past next) (by simp; omega) (by simp; omega)
      · obtain rfl : done.length = len := le_antisymm room full
        rw [push_full]
        exact grows

end Sweep

section Merge

/-- The slots while neighbours are merged: what is merged, with its last region apart, the slots
that are free again, and the regions still to come. -/
def merging (init : List MemoryRegion) (last : MemoryRegion) (free rest : List MemoryRegion) :
    List MemoryRegion × Nat :=
  (init ++ last :: (free ++ rest), init.length + 1)

variable {init free rest : List MemoryRegion} {last region : MemoryRegion} {count i : Nat}

theorem merging_last (init free rest : List MemoryRegion) (last : MemoryRegion) :
    index (merging init last free rest).1 init.length = .ok last :=
  index_getElem? (by simp [merging])

section

variable (place : i = init.length + 1 + free.length) (counted : i < count)
  (room : count ≤ (merging init last free (region :: rest)).1.length)
include place counted room

theorem merging_next :
    (slice (merging init last free (region :: rest)).1 0 count >>= fun shown => index shown i) =
      .ok region := by
  rw [slice_ok (zero_le _) room, bind_ok]
  apply index_getElem?
  rw [drop_zero, Nat.sub_zero, getElem?_take_of_lt counted, merging,
    getElem?_append_right (by omega)]
  obtain ⟨offset, rfl⟩ : ∃ offset, i = init.length + (offset + 1) := ⟨free.length, by omega⟩
  rw [Nat.add_sub_cancel_left, getElem?_cons_succ, getElem?_append_right (by omega)]
  obtain rfl : offset = free.length := by omega
  simp

theorem mergeOne_eq : mergeOne count (merging init last free (region :: rest)) i =
    if region.typ = last.typ then do
      let len ← add usizeMax last.len region.len
      pure (merging init ⟨last.base, len, last.typ⟩ (free ++ [region]) rest)
    else .ok (merging (init ++ [last]) region (free ++ [region]).tail rest) := by
  have next := merging_next place counted room
  rw [mergeOne, ← bind_assoc, next, bind_ok]
  simp only [merging] at *
  rw [sub_ok (by omega), bind_ok, Nat.add_sub_cancel]
  rw [show index (init ++ last :: (free ++ region :: rest)) init.length = .ok last from
    merging_last init free (region :: rest) last, bind_ok]
  split
  · simp [store, bind_ok, pure_eq_ok]
  · rw [store, if_pos (by simp only [length_append, length_cons]; omega), bind_ok, set_append_right _ _ (by omega),
      Nat.add_sub_cancel_left, set_cons_succ]
    cases free <;> simp [pure_eq_ok]

end

theorem deref_merging (init free rest : List MemoryRegion) (last : MemoryRegion) :
    deref ⟨(merging init last free rest).1, (merging init last free rest).2⟩ = .ok (init ++ [last]) := by
  rw [deref, merging, slice_ok (zero_le _) (by simp)]
  simp [take_length_add_append]

theorem merge_ok {regions spare : List MemoryRegion} {mid top : Nat} (fits : top ≤ usizeMax)
    (tiles : Tiles base stop 0 mid (init ++ [last])) (ahead : Tiles base stop mid top rest)
    (types : Labelled base stop typ (Reported regions) (init ++ [last]))
    (later : Labelled base stop typ (Reported regions) rest)
    (differ : (init ++ [last]).IsChain fun one other => one.typ ≠ other.typ)
    (place : i = init.length + 1 + free.length) (counted : i + rest.length = count)
    (room : count ≤ (merging init last free (rest ++ spare)).1.length) :
    ∃ before final gap, (range' i rest.length).foldlM (mergeOne count) (merging init last free (rest ++ spare)) =
        .ok (merging before final gap spare) ∧
      Tiles base stop 0 top (before ++ [final]) ∧ Labelled base stop typ (Reported regions) (before ++ [final]) ∧
        (before ++ [final]).IsChain fun one other => one.typ ≠ other.typ := by
  induction rest generalizing init last free i mid with
  | nil =>
    obtain rfl : mid = top := ahead
    exact ⟨init, last, free, rfl, tiles, types, differ⟩
  | cons region rest ih =>
    obtain ⟨begins, order, ahead⟩ := ahead
    have reach := ahead.le
    have ends := (tiles_concat.mp tiles).2.2
    rw [labelled_cons] at later
    obtain ⟨own, later⟩ := later
    rw [length_cons] at counted ⊢
    rw [cons_append] at room ⊢
    rw [range'_succ, foldlM_cons]
    by_cases same : region.typ = last.typ
    · have joined : (⟨last.base, last.len + region.len, last.typ⟩ : MemoryRegion).stop = region.stop := by
        unfold stop at *
        dsimp only
        omega
      rw [mergeOne_eq place (by omega) room, if_pos same, add_ok (by unfold stop at *; omega), bind_ok, pure_eq_ok,
        bind_ok]
      refine ih (tiles.extend rfl order joined) ahead ?_ later ?_ (by simp; omega) (by omega) ?_
      · refine types.extend (fun address above below => ?_) rfl rfl
        rw [joined] at below
        rw [← same]
        exact own address (by omega) below
      · exact isChain_extend differ fun one differs => differs
      · simpa [merging] using room
    · rw [mergeOne_eq place (by omega) room, if_neg same, bind_ok]
      refine ih ?_ ahead ?_ later ?_ (by simp; omega) (by omega) ?_
      · rw [tiles_concat, begins]
        exact ⟨tiles, order, rfl⟩
      · rw [labelled_concat]
        exact ⟨types, own⟩
      · rw [isChain_append]
        refine ⟨differ, isChain_singleton _, ?_⟩
        rintro one final other head
        rw [getLast?_concat, Option.mem_some_iff] at final
        rw [head?_cons, Option.mem_some_iff] at head
        subst final head
        exact Ne.symm same
      · simp [merging] at room ⊢
        omega

end Merge

variable {regions : List MemoryRegion} {len : Nat}

theorem usable_of_types {result : List MemoryRegion} (types : Labelled base stop typ (Reported regions) result) :
    ∀ entry ∈ result, entry.typ = .usable → ∀ region ∈ regions, region.typ ≠ .usable →
      ∀ address, entry.base ≤ address → address < entry.stop →
        ¬(region.base ≤ address ∧ address < region.stop) := by
  rintro entry member usable region listed other address above below ⟨low, high⟩
  have covers := covers_of_mem other low high
  have reported := types entry member address above below
  rw [usable] at reported
  rcases reported with ⟨same, _⟩ | ⟨_, least⟩
  · contradiction
  · have most : ∀ typ : MemoryRegionType, .usable ≤ typ → typ = .usable := by
      intro typ
      cases typ <;> decide
    exact other (most _ (least region listed covers))

theorem normal_iff {result : List MemoryRegion} {top : Nat} (tiles : Tiles base stop 0 top result)
    (types : Labelled base stop typ (Reported regions) result)
    (differ : result.IsChain fun one other => one.typ ≠ other.typ) :
    Normal regions result ↔ top = lastEnd regions := by
  constructor
  · intro normal
    exact tiles.unique normal.tiles
  · rintro rfl
    exact ⟨tiles, tiles.pairwise, types, usable_of_types types, differ⟩

theorem intoNonOverlapping_filled (fits : ∀ region ∈ regions, region.stop ≤ usizeMax)
    (room : regions.length ≤ len)
    (alignable : ∀ region ∈ regions, region.Alignable) :
    (filled len regions).intoNonOverlapping = (do
      let result ← sweep (regions.map aligned) (maxAddr regions) (len + 1) (filled len []) 0
      let (merged, count) ← (range' 1 (result.count - 1)).foldlM (mergeOne result.count) (result.regions, 1)
      pure ⟨merged, count⟩) := by
  have slots : (filled len regions).regions.mapM asAligned = .ok (filled len (regions.map aligned)).regions := by
    rw [mapM_ok (g := aligned)]
    · simp only [filled, map_append, map_replicate, length_map]
      rfl
    · intro region member
      rcases mem_append.mp member with listed | spare
      · exact asAligned_ok (fits region listed) (alignable region listed)
      · rw [eq_of_mem_replicate spare]
        exact asAligned_ok (by decide) (by decide)
  have same : deref ⟨(filled len (regions.map aligned)).regions, (filled len regions).count⟩ =
      .ok (regions.map aligned) := by
    have shown := deref_filled len (regions.map aligned)
    simpa [filled] using shown
  rw [intoNonOverlapping, deref_filled, bind_ok,
    mapM_ok (f := regionEnd) (g := stop) (fun region member => add_ok (fits region member)),
    bind_ok]
  rw [slots, bind_ok, same, bind_ok, length_filled (by simpa using room)]
  rfl

def Needs (regions : List MemoryRegion) (len : Nat) : Prop := ∀ result, Normal regions result → len < result.length

theorem merged (fits : ∀ region ∈ regions, region.stop ≤ usizeMax)
    (alignable : ∀ region ∈ regions, region.Alignable) {done : List MemoryRegion} {curRight : Nat}
    (swept : Swept regions done curRight) (far : maxAddr regions ≤ curRight) (room : done.length ≤ len) :
    ∃ state : List MemoryRegion × Nat,
      (range' 1 (done.length - 1)).foldlM (mergeOne done.length) ((filled len done).regions, 1) = .ok state ∧
      ((∃ result, deref ⟨state.1, state.2⟩ = .ok result ∧ Normal regions result) ↔
        0 < len ∧ LastPage regions) := by
  have top : curRight ≤ usizeMax := by
    rcases swept.edge with rfl | ⟨edge, _⟩
    · exact zero_le _
    · exact (edge_le_lastEnd alignable edge).trans (lastEnd_le_usizeMax fits alignable)
  cases done with
  | nil =>
    obtain rfl : 0 = curRight := swept.tiles
    refine ⟨_, rfl, ?_⟩
    rw [← swept.lastEnd_iff alignable far]
    rcases Nat.eq_zero_or_pos len with rfl | positive
    · constructor
      · rintro ⟨result, shown, _⟩
        cases shown
      · rintro ⟨absurd, _⟩
        omega
    · have shown : deref ⟨(filled len []).regions, 1⟩ = .ok [.bad] := by
        obtain ⟨spare, rfl⟩ : ∃ spare, len = spare + 1 := ⟨len - 1, by omega⟩
        rw [deref, slice_ok (zero_le _) (by simp [filled])]
        simp [filled, replicate_succ]
      have types : Labelled base stop typ (Reported regions) [.bad] := by
        rw [labelled_cons]
        exact ⟨fun address above below => absurd below (by simp [stop, bad]), by simp [Labelled]⟩
      rw [shown, ← @normal_iff regions [.bad] 0 ⟨rfl, by decide, rfl⟩ types (isChain_singleton _)]
      simp [positive]
  | cons first rest =>
    obtain ⟨begins, order, ahead⟩ := swept.tiles
    have later := labelled_cons.mp swept.types
    obtain ⟨init, last, free, ran, tiles, types, differ⟩ := @merge_ok [] [] rest first (first :: rest).length 1
      regions (replicate (len - (first :: rest).length) .bad) first.stop curRight top ⟨begins, order, rfl⟩ ahead
      (labelled_cons.mpr ⟨later.1, by simp [Labelled]⟩) later.2 (isChain_singleton _) rfl
      (add_comm 1 rest.length) (by simp [merging])
    refine ⟨_, ran, ?_⟩
    have positive : 0 < len := (succ_pos rest.length).trans_le room
    rw [deref_merging, ← swept.lastEnd_iff alignable far, ← normal_iff tiles types differ]
    simp [positive]

/-- Exactly when the call keeps its promise: it panics only if the merged result would not fit,
and what it returns is a map without overlaps of all addresses up to the last end. -/
theorem intoNonOverlapping_normal_iff {array : MemoryRegionArray}
    (fits : ∀ region ∈ regions, region.base + region.len ≤ usizeMax) (built : collect len regions = some array) :
    ((∀ panic, array.intoNonOverlapping = .error panic → Needs regions len) ∧
      ∀ after, array.intoNonOverlapping = .ok after → ∃ result, after.deref = .ok result ∧
        Normal regions result) ↔
    if (∀ region ∈ regions, region.Alignable) ∧ turns regions ≤ len then 0 < len ∧ LastPage regions
    else Needs regions len := by
  obtain ⟨room, rfl⟩ := collect_eq built
  by_cases alignable : ∀ region ∈ regions, region.Alignable
  · have ran := intoNonOverlapping_filled fits room alignable
    have meets := sweep_meets len fits alignable (len + 1) [] 0 swept_nil (zero_le _) (by simp)
    cases swept : sweep (regions.map aligned) (maxAddr regions) (len + 1) (filled len []) 0 with
    | error panic =>
      rw [swept] at ran meets
      have many : len < turns regions := meets
      rw [if_neg (by omega), ran]
      exact ⟨fun keeps => keeps.1 panic rfl, fun needs => ⟨fun _ _ => needs, fun _ absurd => by cases absurd⟩⟩
    | ok result =>
      rw [swept] at ran meets
      obtain ⟨done, curRight, rfl, fit, swept, far⟩ := meets
      obtain ⟨state, merges, promised⟩ := merged fits alignable swept far fit
      have call : (filled len regions).intoNonOverlapping = .ok ⟨state.1, state.2⟩ := by
        rw [ran, bind_ok]
        exact (congrArg (· >>= _) merges).trans rfl
      rw [if_pos ⟨alignable, (swept.length_eq far) ▸ fit⟩, ← promised, call]
      constructor
      · intro keeps
        exact keeps.2 _ rfl
      · intro normal
        refine ⟨fun _ absurd => (by cases absurd), fun after same => ?_⟩
        obtain rfl := Except.ok.inj same
        exact normal
  · rw [if_neg fun both => alignable both.1]
    have fails : ∀ after, (filled len regions).intoNonOverlapping ≠ .ok after := by
      intro after ran
      rw [intoNonOverlapping] at ran
      obtain ⟨_, _, ran⟩ := bind_eq_ok.mp ran
      obtain ⟨_, _, ran⟩ := bind_eq_ok.mp ran
      obtain ⟨slots, all, _⟩ := bind_eq_ok.mp ran
      refine alignable fun region member => ?_
      obtain ⟨_, each⟩ := ok_of_mapM all region (mem_append_left _ member)
      exact alignable_of_asAligned (fits region member) each
    cases ran : (filled len regions).intoNonOverlapping with
    | ok after => exact absurd ran (fails after)
    | error panic =>
      exact ⟨fun keeps => keeps.1 panic rfl, fun needs => ⟨fun _ _ => needs, fun _ absurd => by cases absurd⟩⟩

def tested : List MemoryRegion :=
  [⟨0, 4097, .usable⟩, ⟨4095, 4098, .usable⟩, ⟨8192, 20480, .usable⟩, ⟨12289, 4094, .badMemory⟩,
    ⟨36864, 8192, .usable⟩]

theorem tested_normal : ∃ array after result, collect 64 tested = some array ∧
    array.intoNonOverlapping = .ok after ∧ after.deref = .ok result ∧ Normal tested result := by
  have built : collect 64 tested = some (filled 64 tested) := by decide +kernel
  have met : ((∀ region ∈ tested, region.Alignable) ∧ turns tested ≤ 64) ∧ 0 < 64 ∧ LastPage tested := by
    decide +kernel
  have promised := (intoNonOverlapping_normal_iff (by decide) built).mpr ((if_pos met.1).mpr met.2)
  have returns : (filled 64 tested).intoNonOverlapping.isOk = true := by decide +kernel
  cases ran : (filled 64 tested).intoNonOverlapping with
  | error panic =>
    rw [ran] at returns
    contradiction
  | ok after =>
    obtain ⟨result, shown, normal⟩ := promised.2 after ran
    exact ⟨_, after, result, built, ran, shown, normal⟩

/-- A usable region within a page turns inside out when it is aligned, and its length underflows;
the map is one region. -/
theorem subPage_panics : ∃ array, collect 64 [⟨0, 8192, .usable⟩, ⟨256, 512, .usable⟩] = some array ∧
    array.intoNonOverlapping = .error .subOverflow ∧
    Normal [⟨0, 8192, .usable⟩, ⟨256, 512, .usable⟩] [⟨0, 8192, .usable⟩] := by
  refine ⟨_, rfl, by decide +kernel, ?_⟩
  have tiles : Tiles base stop 0 8192 [⟨0, 8192, .usable⟩] := ⟨rfl, by decide, rfl⟩
  refine ⟨tiles, tiles.pairwise, ?_, ?_, isChain_singleton _⟩
  · rw [labelled_cons]
    refine ⟨fun address above below => .inr ⟨⟨_, mem_cons_self, ⟨above, below⟩, rfl⟩, ?_⟩,
      by simp [Labelled]⟩
    simp
  · simp

example : ((filled 64 [⟨0, 4096, .usable⟩, ⟨4096, 100, .reserved⟩]).intoNonOverlapping >>= deref) =
    .ok [⟨0, 4096, .usable⟩] := by
  decide +kernel

example : (filled 2 [⟨4096, 8192, .usable⟩, ⟨8192, 8192, .usable⟩]).intoNonOverlapping =
    .error .unwrapNone := by
  decide +kernel

end Kei.Boot
