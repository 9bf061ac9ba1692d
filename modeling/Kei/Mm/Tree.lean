import Kei.Library.Radix
import Kei.Mm.PageTable

/-! The nodes of a page table as a radix tree over page numbers, and what the operations on
entries do to it. -/

namespace Kei.Mm

open Library Checked PteTrait PteState PageTableFlags Function Nat PteScalar

theorem pageSize_succ (level : Nat) : pageSize (level + 1) = 4096 * 512 ^ level := by
  rw [pageSize, basePageSize, Nat.shiftLeft_eq, Nat.add_sub_cancel, Nat.pow_mul]

theorem pteIndex_succ (va level : Nat) : pteIndex va (level + 1) = va / 4096 / 512 ^ level % 512 := by
  have split : 2 ^ (12 + 9 * level) = 4096 * 512 ^ level := by rw [Nat.pow_add, Nat.pow_mul]
  rw [pteIndex, pteIndexBitOffset, nrSubpagePerHuge, Nat.add_sub_cancel, Nat.shiftRight_eq_div_pow, split,
    ← Nat.div_div_eq_div_mul]
  exact and_two_pow_sub_one_eq_mod _ 9

theorem alignDown_pageSize (va level : Nat) :
    alignDown va (pageSize (level + 1)) = 4096 * 512 ^ level * (va / 4096 / 512 ^ level) := by
  have whole := div_add_mod va (4096 * 512 ^ level)
  rw [alignDown, pageSize_succ, Nat.div_div_eq_div_mul]
  omega

/-- What an architecture's entries read back as. Only addresses that satisfy `addressable` can be
stored for tables; for pages, address and property may come back changed. -/
structure PteLaws (E : Type) [PteTrait E] (highest : Nat) (addressable : Nat → Prop)
    (readPaddr : Nat → Nat) (readProp : PageProperty → PageProperty) : Prop where
  zeroed : ∀ level, toRepr (newZeroed : E) level = .absent
  table : ∀ {paddr} level {upper}, addressable paddr → 1 < upper →
    toRepr (fromRepr (.pageTable paddr empty) level : E) upper = .pageTable paddr empty
  page : ∀ paddr prop {level}, 0 < level → level ≤ highest →
    toRepr (fromRepr (.mapped paddr prop) level : E) level = .mapped (readPaddr paddr) (readProp prop)

def PteScalar.slot : PteScalar → Slot Nat (Nat × PageProperty)
  | .absent => .empty
  | .mapped paddr prop => .leaf (paddr, prop)
  | .pageTable paddr _ => .table paddr

theorem PteScalar.slot_eq_empty {repr : PteScalar} : repr.slot = .empty ↔ repr = .absent := by
  cases repr <;> simp [slot]

theorem PteScalar.slot_eq_leaf {repr : PteScalar} {frame : Nat} {prop : PageProperty} :
    repr.slot = .leaf (frame, prop) ↔ repr = .mapped frame prop := by
  cases repr <;> simp [slot]

variable {E Item : Type}

namespace Memory

theorem node_eq_ok {memory : Memory E} {paddr : Nat} {node : PageTableNode E} :
    memory.node paddr = .ok node ↔ memory.nodes paddr = some node := by
  unfold Memory.node
  cases memory.nodes paddr <;> simp

theorem node_yields (memory : Memory E) (paddr : Nat) :
    Yields (memory.node paddr) fun node => memory.nodes paddr = some node := by
  unfold Memory.node
  cases memory.nodes paddr with
  | none => exact Panic.noConfusion
  | some node => rfl

theorem setNode_setNode (memory : Memory E) (paddr : Nat) (first second : PageTableNode E) :
    (memory.setNode paddr first).setNode paddr second = memory.setNode paddr second := by
  simp [setNode]

theorem setNode_nodes_self (memory : Memory E) (paddr : Nat) (node : PageTableNode E) :
    (memory.setNode paddr node).nodes paddr = some node := by
  simp [setNode]

theorem entry_eq {memory : Memory E} {paddr idx : Nat} {node : PageTableNode E}
    (found : memory.nodes paddr = some node) (bound : idx < nrSubpagePerHuge) :
    memory.entry paddr idx = .ok ⟨node.ptes idx, idx, paddr⟩ := by
  simp [entry, bound, assert, node_eq_ok.mpr found, bind_ok, pure_eq_ok]

theorem entry_yields (memory : Memory E) (paddr idx : Nat) : Yields (memory.entry paddr idx) fun _ => True := by
  refine (assert_yields _).bind fun _ _ => ?_
  refine (memory.node_yields paddr).bind fun _ _ => ?_
  exact trivial

section

variable {memory : Memory E} {paddr idx : Nat} {node : PageTableNode E} (pte : E)
  (found : memory.nodes paddr = some node)
include pte found

theorem writePte_eq (bound : idx < nrSubpagePerHuge) : memory.writePte paddr idx pte =
      .ok (memory.setNode paddr { node with ptes := update node.ptes idx pte }) := by
  simp [writePte, bound, assert, node_eq_ok.mpr found, bind_ok, pure_eq_ok]

theorem writePte_yields : Yields (memory.writePte paddr idx pte) fun changed =>
      changed = memory.setNode paddr { node with ptes := update node.ptes idx pte } := by
  refine (assert_yields _).bind ?_
  intro _ _
  rw [node_eq_ok.mpr found]
  exact rfl

end

variable [PteTrait E]

def slots (memory : Memory E) (paddr idx : Nat) : Slot Nat (Nat × PageProperty) :=
  match memory.nodes paddr with
  | none => .empty
  | some node => (toRepr (node.ptes idx) node.level).slot

def lookup (C : PageTableConfig Item) (memory : Memory E) (root page : Nat) :
    Option (Nat × Nat × PageProperty) :=
  Radix.lookup 512 memory.slots C.nrLevels root page

def shown (C : PageTableConfig Item) (memory : Memory E) (root page : Nat) : Checked (Option Item) :=
  match memory.lookup C root page with
  | none => .ok none
  | some (level, frame, prop) => do return some (← C.itemFromRaw frame level prop)

structure Sound (C : PageTableConfig Item) (owned addressable : Nat → Prop) (root : Nat)
    (place : Nat → Option (Nat × Nat)) (memory : Memory E) : Prop where
  tree : Radix.Sound 512 owned C.nrLevels root place memory.slots
  node : ∀ {paddr level number}, place paddr = some (level, number) →
    ∃ node, memory.nodes paddr = some node ∧ node.level = level
  live : ∀ {paddr spot node}, place paddr = some spot → memory.nodes paddr = some node → node.stray = false
  plain : ∀ {paddr level number idx value}, place paddr = some (level, number) →
    C.highestTranslationLevel < level → memory.slots paddr idx ≠ .leaf value
  fresh : ∀ {paddr}, paddr ∈ memory.free → memory.nodes paddr = none ∧ addressable paddr
  distinct : memory.free.Nodup

theorem slots_of_node {memory : Memory E} {paddr : Nat} {node : PageTableNode E}
    (found : memory.nodes paddr = some node) (idx : Nat) :
    memory.slots paddr idx = (toRepr (node.ptes idx) node.level).slot := by
  simp [slots, found]

structure Rewrites (memory : Memory E) (paddr idx : Nat) (repr : PteScalar) (changed : Memory E) : Prop where
  free : changed.free = memory.free
  others : ∀ {other}, other ≠ paddr → changed.nodes other = memory.nodes other
  node : ∀ {node}, memory.nodes paddr = some node → ∃ next, changed.nodes paddr = some next ∧
    next.level = node.level ∧ next.stray = node.stray ∧
    (∀ other, other ≠ idx → next.ptes other = node.ptes other) ∧ toRepr (next.ptes idx) node.level = repr

theorem rewrites_setNode {memory : Memory E} {paddr : Nat} (idx nrChildren : Nat) {node : PageTableNode E}
    {pte : E} {repr : PteScalar} (found : memory.nodes paddr = some node) (reads : toRepr pte node.level = repr) :
    memory.Rewrites paddr idx repr (memory.setNode paddr
      { node with nrChildren := nrChildren, ptes := update node.ptes idx pte }) where
  free := rfl
  others := by
    intro other different
    exact update_of_ne different _ _
  node := by
    intro same again
    rw [found] at again
    cases again
    refine ⟨_, update_self _ _ _, rfl, rfl, ?_, ?_⟩
    · intro other different
      exact update_of_ne different _ _
    · simpa using reads

namespace Rewrites

variable {memory changed : Memory E} {paddr idx : Nat} {repr : PteScalar}

variable (rewrites : memory.Rewrites paddr idx repr changed) {node : PageTableNode E}
  (found : memory.nodes paddr = some node)
include rewrites found

theorem slots_hit : changed.slots paddr idx = repr.slot := by
  obtain ⟨next, foundNext, level, _, _, reads⟩ := rewrites.node found
  rw [slots_of_node foundNext, level, reads]

theorem slots_frame {table slot : Nat} (apart : table ≠ paddr ∨ slot ≠ idx) :
    changed.slots table slot = memory.slots table slot := by
  by_cases same : table = paddr
  · subst same
    obtain ⟨next, foundNext, level, _, others, _⟩ := rewrites.node found
    rw [slots_of_node foundNext, slots_of_node found, level, others slot (by simpa using apart)]
  · simp only [slots, rewrites.others same]

end Rewrites

namespace Sound

variable {C : PageTableConfig Item} {owned addressable : Nat → Prop} {root : Nat}
  {place : Nat → Option (Nat × Nat)} {memory changed : Memory E} {paddr idx level number : Nat}

section

variable (sound : memory.Sound C owned addressable root place)
include sound

theorem free_ne {frame : Nat} {node : PageTableNode E} (member : frame ∈ memory.free)
    (found : memory.nodes paddr = some node) : frame ≠ paddr := by
  rintro rfl
  rw [(sound.fresh member).1] at found
  cases found

theorem free_unplaced {frame : Nat} (member : frame ∈ memory.free) : place frame = none := by
  cases here : place frame with
  | none => rfl
  | some spot =>
    obtain ⟨_, found, _⟩ := sound.node here
    exact absurd rfl (sound.free_ne member found)

theorem level_eq {node : PageTableNode E} (placed : place paddr = some (level, number))
    (found : memory.nodes paddr = some node) : node.level = level := by
  obtain ⟨same, foundSame, levelSame⟩ := sound.node placed
  rw [found] at foundSame
  cases foundSame
  exact levelSame

end

structure Extends (C : PageTableConfig Item) (owned addressable : Nat → Prop) (root : Nat)
    (place : Nat → Option (Nat × Nat)) (memory : Memory E) (wider : Nat → Option (Nat × Nat))
    (changed : Memory E) : Prop where
  grows : Radix.Grows place wider
  sound : changed.Sound C owned addressable root wider
  same : ∀ {page}, owned page → changed.lookup C root page = memory.lookup C root page

theorem Extends.refl (sound : memory.Sound C owned addressable root place) :
    Extends C owned addressable root place memory place memory :=
  ⟨fun _ _ here => here, sound, fun _ => rfl⟩

theorem Extends.trans {middle last : Memory E} {wide wider : Nat → Option (Nat × Nat)}
    (one : Extends C owned addressable root place memory wide middle)
    (two : Extends C owned addressable root wide middle wider last) :
    Extends C owned addressable root place memory wider last :=
  ⟨one.grows.trans two.grows, two.sound, fun within => (two.same within).trans (one.same within)⟩

variable (sound : memory.Sound C owned addressable root place)
include sound

theorem rewrite {repr : PteScalar} (placed : place paddr = some (level, number))
    (rewrites : memory.Rewrites paddr idx repr changed) (before : ∀ below, memory.slots paddr idx ≠ .table below)
    (after : ∀ below, repr.slot ≠ .table below)
    (leaf : C.highestTranslationLevel < level → ∀ value, repr.slot ≠ .leaf value) :
    changed.Sound C owned addressable root place := by
  obtain ⟨node, found, _⟩ := sound.node placed
  have frame : ∀ table slot, place table ≠ none → (table ≠ paddr ∨ slot ≠ idx) →
      changed.slots table slot = memory.slots table slot :=
    fun table slot _ apart => rewrites.slots_frame found apart
  refine ⟨?_, ?_, ?_, ?_, ?_, ?_⟩
  · refine sound.tree.put frame before ?_
    rw [rewrites.slots_hit found]
    exact after
  · intro other otherLevel otherNumber here
    obtain ⟨otherNode, foundOther, levelOther⟩ := sound.node here
    by_cases same : other = paddr
    · subst same
      obtain ⟨next, foundNext, levelNext, _⟩ := rewrites.node foundOther
      exact ⟨next, foundNext, levelNext.trans levelOther⟩
    · exact ⟨otherNode, (rewrites.others same).trans foundOther, levelOther⟩
  · intro other spot otherNode here foundOther
    by_cases same : other = paddr
    · subst same
      obtain ⟨next, foundNext, _, strayNext, _⟩ := rewrites.node found
      rw [foundNext] at foundOther
      cases foundOther
      rw [strayNext]
      exact sound.live here found
    · rw [rewrites.others same] at foundOther
      exact sound.live here foundOther
  · intro other otherLevel otherNumber slot value here high
    by_cases hit : other = paddr ∧ slot = idx
    · obtain ⟨rfl, rfl⟩ := hit
      rw [placed] at here
      cases here
      rw [rewrites.slots_hit found]
      exact leaf high value
    · rw [rewrites.slots_frame found (by tauto)]
      exact sound.plain here high
  · intro other member
    rw [rewrites.free] at member
    obtain ⟨unused, storable⟩ := sound.fresh member
    exact ⟨(rewrites.others (sound.free_ne member found)).trans unused, storable⟩
  · rw [rewrites.free]
    exact sound.distinct

theorem lookup_rewrite_frame {repr : PteScalar} (placed : place paddr = some (level + 1, number))
    (rewrites : memory.Rewrites paddr idx repr changed) {page : Nat} (within : owned page)
    (outside : page / 512 ^ level ≠ number * 512 + idx) :
    changed.lookup C root page = memory.lookup C root page := by
  obtain ⟨node, found, _⟩ := sound.node placed
  exact sound.tree.lookup_frame placed (fun table slot _ apart => rewrites.slots_frame found apart) within outside

theorem rewrite_page {page frame : Nat} {prop : PageProperty} (single : 1 ≤ C.highestTranslationLevel)
    (within : owned page) (placed : place paddr = some (0 + 1, page / 512 ^ (0 + 1)))
    (rewrites : memory.Rewrites paddr (page / 512 ^ 0 % 512) (.mapped frame prop) changed) :
    changed.Sound C owned addressable root place ∧ ∀ other, owned other → changed.lookup C root other =
      if other = page then some (1, frame, prop) else memory.lookup C root other := by
  obtain ⟨node, found, _⟩ := sound.node placed
  have before : ∀ below, memory.slots paddr (page / 512 ^ 0 % 512) ≠ .table below := by
    intro below slot
    have positive := (sound.tree.below (sound.tree.child within placed slot)).1
    omega
  have soundChanged := sound.rewrite placed rewrites before (by simp [slot]) (by omega)
  refine ⟨soundChanged, ?_⟩
  intro other withinOther
  by_cases same : other = page
  · subst same
    rw [if_pos rfl]
    exact soundChanged.tree.lookup_leaf placed (rewrites.slots_hit found)
  · rw [if_neg same]
    refine sound.lookup_rewrite_frame placed rewrites withinOther ?_
    rw [Radix.div_pow_split, Nat.pow_zero, Nat.div_one, Nat.div_one]
    exact same

end Sound

end Memory

open Memory

def Memory.withChild [PteTrait E] (memory : Memory E) (paddr idx child count : Nat) (free : List Nat)
    (node : PageTableNode E) : Memory E where
  nodes := update
    (update memory.nodes child (some ⟨node.level - 1, 0, false, fun _ => newZeroed⟩)) paddr
    (some { node with
      nrChildren := count
      ptes := update node.ptes idx
        (fromRepr (.pageTable child empty) (node.level - 1)) })
  free := free

theorem Memory.withChild_nodes [PteTrait E] (memory : Memory E) (paddr idx child count : Nat) (free : List Nat)
    (node : PageTableNode E) (table : Nat) : (memory.withChild paddr idx child count free node).nodes table =
      if table = paddr then
        some { node with
          nrChildren := count
          ptes := update node.ptes idx
            (fromRepr (.pageTable child empty) (node.level - 1)) }
      else if table = child then some ⟨node.level - 1, 0, false, fun _ => newZeroed⟩
      else memory.nodes table := by
  simp only [withChild, update_apply]

namespace Memory.Sound

variable [PteTrait E] {C : PageTableConfig Item} {owned addressable : Nat → Prop} {root : Nat}
  {place : Nat → Option (Nat × Nat)} {memory changed : Memory E} {paddr idx level number : Nat}
  {readPaddr : Nat → Nat} {readProp : PageProperty → PageProperty}

section

variable (laws : PteLaws E C.highestTranslationLevel addressable readPaddr readProp)
  {node : PageTableNode E} {child : Nat} {free : List Nat}

include laws

theorem withChild_slots (idx count : Nat) (free : List Nat) (found : memory.nodes paddr = some node)
    (inner : 1 < node.level) (storable : addressable child) (other : child ≠ paddr) :
    (withChild memory paddr idx child count free node).slots paddr idx = .table child ∧
    (∀ slot, (withChild memory paddr idx child count free node).slots child slot = .empty) ∧
    ∀ table slot, table ≠ child → (table ≠ paddr ∨ slot ≠ idx) →
      (withChild memory paddr idx child count free node).slots table slot = memory.slots table slot := by
  refine ⟨?_, ?_, ?_⟩
  · have reads := laws.table (node.level - 1) storable inner
    simp [slots, withChild_nodes, reads, slot]
  · intro slot
    have reads := laws.zeroed (node.level - 1)
    simp [slots, withChild_nodes, other, reads, PteScalar.slot]
  · intro table slot fresh apart
    by_cases same : table = paddr
    · subst same
      have slotApart : slot ≠ idx := by simpa using apart
      simp [slots, withChild_nodes, found, update_of_ne slotApart]
    · simp [slots, withChild_nodes, same, fresh]

variable (count : Nat) (sound : memory.Sound C owned addressable root place)
  (placed : place paddr = some (level + 1, number)) (bound : idx < 512) (found : memory.nodes paddr = some node)
  (empty : memory.slots paddr idx = .empty) (inner : node.level ≠ 1) (supply : memory.free = child :: free)
include count sound placed bound found empty inner supply

theorem withChild_tree :
    Radix.Sound 512 owned C.nrLevels root (update place child (some (level, number * 512 + idx)))
      (withChild memory paddr idx child count free node).slots := by
  have supplied : child ∈ memory.free := by simp [supply]
  have nodeLevel := sound.level_eq placed found
  have unplaced := sound.free_unplaced supplied
  obtain ⟨hung, blank, frame⟩ := withChild_slots laws idx count free found (by omega) (sound.fresh supplied).2
    (sound.free_ne supplied found)
  refine sound.tree.attach placed (by omega) bound unplaced ?_ (by simp [empty]) hung (by simp [blank])
  intro table slot used apart
  refine frame table slot ?_ apart
  rintro rfl
  exact used unplaced

theorem withChild_sound :
    (withChild memory paddr idx child count free node).Sound C owned addressable root
      (update place child (some (level, number * 512 + idx))) := by
  have supplied : child ∈ memory.free := by simp [supply]
  have other := sound.free_ne supplied found
  have nodeLevel := sound.level_eq placed found
  have distinct := sound.distinct
  rw [supply, List.nodup_cons] at distinct
  obtain ⟨hung, blank, frame⟩ := withChild_slots laws idx count free found (by omega) (sound.fresh supplied).2 other
  refine ⟨withChild_tree laws count sound placed bound found empty inner supply, ?_, ?_, ?_, ?_, distinct.2⟩
  · intro table tableLevel tableNumber here
    by_cases same : table = child
    · subst same
      rw [update_self] at here
      cases here
      refine ⟨⟨node.level - 1, 0, false, fun _ => newZeroed⟩, ?_, by simp [nodeLevel]⟩
      simp [withChild_nodes, other]
    · rw [update_of_ne same] at here
      obtain ⟨tableNode, foundTable, levelTable⟩ := sound.node here
      by_cases parent : table = paddr
      · subst parent
        rw [found] at foundTable
        cases foundTable
        exact ⟨_, update_self _ _ _, levelTable⟩
      · refine ⟨tableNode, ?_, levelTable⟩
        simpa [withChild_nodes, parent, same] using foundTable
  · intro table spot tableNode here foundTable
    by_cases parent : table = paddr
    · subst parent
      rw [withChild_nodes, if_pos rfl] at foundTable
      cases foundTable
      have alive := sound.live placed found
      exact alive
    · rw [withChild_nodes, if_neg parent] at foundTable
      by_cases same : table = child
      · rw [if_pos same] at foundTable
        cases foundTable
        rfl
      · rw [if_neg same] at foundTable
        rw [update_of_ne same] at here
        exact sound.live here foundTable
  · intro table tableLevel tableNumber slot value here high
    by_cases same : table = child
    · subst same
      simp [blank]
    · rw [update_of_ne same] at here
      by_cases hit : table = paddr ∧ slot = idx
      · obtain ⟨rfl, rfl⟩ := hit
        simp [hung]
      · rw [frame table slot same (by tauto)]
        exact sound.plain here high
  · intro table member
    have free : table ∈ memory.free := by
      rw [supply]
      exact List.mem_cons_of_mem _ member
    have notChild : table ≠ child := by
      rintro rfl
      exact distinct.1 member
    obtain ⟨unused, storable⟩ := sound.fresh free
    refine ⟨?_, storable⟩
    simpa [withChild_nodes, sound.free_ne free found, notChild] using unused

theorem withChild_lookup {page : Nat} (within : owned page) :
    (withChild memory paddr idx child count free node).lookup C root page = memory.lookup C root page := by
  have supplied : child ∈ memory.free := by simp [supply]
  have nodeLevel := sound.level_eq placed found
  have tree := withChild_tree laws count sound placed bound found empty inner supply
  obtain ⟨hung, blank, frame⟩ := withChild_slots laws idx count free found (by omega) (sound.fresh supplied).2
    (sound.free_ne supplied found)
  by_cases inside : page / 512 ^ level = number * 512 + idx
  · have above : number = page / 512 ^ (level + 1) := by
      rw [Radix.div_pow_succ, inside]
      omega
    have slot : idx = page / 512 ^ level % 512 := by omega
    rw [above] at placed
    have before : memory.lookup C root page = none :=
      sound.tree.lookup_empty placed (by rw [← slot, empty])
    obtain ⟨lower, rfl⟩ : ∃ lower, level = lower + 1 := ⟨level - 1, by omega⟩
    have here : update place child (some (lower + 1, number * 512 + idx)) child =
        some (lower + 1, page / 512 ^ (lower + 1)) := by
      rw [update_self, inside]
    have after : (withChild memory paddr idx child count free node).lookup C root page = none :=
      tree.lookup_empty here (blank _)
    rw [before, after]
  · refine sound.tree.lookup_frame placed ?_ within inside
    intro table slot used apart
    refine frame table slot ?_ apart
    rintro rfl
    exact used (sound.free_unplaced supplied)

end

end Memory.Sound

namespace Entry

variable [PteTrait E] {C : PageTableConfig Item} {owned addressable : Nat → Prop} {root : Nat}
  {place : Nat → Option (Nat × Nat)} {memory changed : Memory E} {paddr idx level number : Nat}
  {node : PageTableNode E} {readPaddr : Nat → Nat} {readProp : PageProperty → PageProperty}

theorem toRef_eq (sound : memory.Sound C owned addressable root place) {page : Nat} (within : owned page)
    (placed : place paddr = some (level + 1, page / 512 ^ (level + 1))) (found : memory.nodes paddr = some node)
    (index : idx = page / 512 ^ level % 512) :
    (Entry.mk (node.ptes idx) idx paddr).toRef C memory = match memory.slots paddr idx with
      | .empty => .ok .absent
      | .table child => .ok (.pageTable child)
      | .leaf (frame, prop) => do return .mapped (← C.itemFromRaw frame (level + 1) prop) := by
  have nodeLevel := sound.level_eq placed found
  have reads := slots_of_node found idx
  rw [toRef, node_eq_ok.mpr found, bind_ok, fromPte]
  cases scalar : toRepr (node.ptes idx) node.level with
  | absent =>
    rw [scalar] at reads
    simp only [reads, slot]
  | mapped frame prop =>
    rw [scalar] at reads
    simp only [reads, slot, nodeLevel]
  | pageTable child flags =>
    rw [scalar] at reads
    have below := sound.tree.child within placed (index ▸ reads)
    obtain ⟨childNode, foundChild, levelChild⟩ := sound.node below
    simp [reads, slot, node_eq_ok.mpr foundChild, bind_ok, levelChild, nodeLevel, assert,
      pure_eq_ok]

theorem allocIfNone_yields (found : memory.nodes paddr = some node) (bound : idx < 512) (inner : node.level ≠ 1)
    (unused : ∀ {frame}, frame ∈ memory.free → memory.nodes frame = none)
    (absent : (Entry.mk (node.ptes idx) idx paddr).toRef C memory = .ok .absent) :
    Yields ((Entry.mk (node.ptes idx) idx paddr).allocIfNone C memory) fun (allocated, changed) =>
      ∃ child count free, allocated = some child ∧ memory.free = child :: free ∧
        changed = memory.withChild paddr idx child count free node := by
  rw [allocIfNone, absent, bind_ok, node_eq_ok.mpr found, bind_ok,
    if_neg (by simp [isAbsent, inner])]
  cases supply : memory.free with
  | nil =>
    rw [alloc, supply]
    exact Panic.noConfusion
  | cons frame rest =>
    have other : paddr ≠ frame := by
      rintro rfl
      have none := unused (show paddr ∈ memory.free by simp [supply])
      rw [found] at none
      cases none
    have kept : ({ memory with free := rest }.setNode frame ⟨node.level - 1, 0, false, fun _ => newZeroed⟩).nodes
        paddr = some node := (update_of_ne other _ _).trans found
    simp only [alloc, supply, bind_ok, intoPte,
      node_eq_ok.mpr (setNode_nodes_self _ _ _), pure_eq_ok, writePte_eq _ kept bound]
    refine (add_yields 65535 node.nrChildren 1).bind ?_
    rintro count -
    rw [setNode_setNode]
    exact ⟨frame, count, rest, rfl, rfl, rfl⟩

variable (laws : PteLaws E C.highestTranslationLevel addressable readPaddr readProp)
include laws

theorem allocIfNone_sound (sound : memory.Sound C owned addressable root place) {page : Nat} (within : owned page)
    (placed : place paddr = some (level + 1, page / 512 ^ (level + 1))) (found : memory.nodes paddr = some node)
    (inner : level ≠ 0) (index : idx = page / 512 ^ level % 512) (empty : memory.slots paddr idx = .empty) :
    Yields ((Entry.mk (node.ptes idx) idx paddr).allocIfNone C memory) fun (allocated, changed) =>
      ∃ child wider, allocated = some child ∧
        Memory.Sound.Extends C owned addressable root place memory wider changed ∧
        wider child = some (level, page / 512 ^ level) := by
  have bound : idx < 512 := by omega
  have upper : node.level ≠ 1 := by
    rw [sound.level_eq placed found]
    omega
  have absent : (Entry.mk (node.ptes idx) idx paddr).toRef C memory = .ok .absent := by
    rw [toRef_eq sound within placed found index, empty]
  refine (allocIfNone_yields found bound upper (fun member => (sound.fresh member).1) absent).mono ?_
  rintro ⟨_, _⟩ ⟨child, count, free, rfl, supply, rfl⟩
  have unplaced := sound.free_unplaced (show child ∈ memory.free by simp [supply])
  refine ⟨child, _, rfl, ⟨Radix.grows_update unplaced _,
    Memory.Sound.withChild_sound laws count sound placed bound found empty upper supply,
    Memory.Sound.withChild_lookup laws count sound placed bound found empty upper supply⟩, ?_⟩
  rw [update_self, index, Radix.div_pow_split]

theorem replace_mapped_yields {item : Item} (found : memory.nodes paddr = some node) (low : 0 < node.level)
    (high : node.level ≤ C.highestTranslationLevel) (empty : memory.slots paddr idx = .empty) :
    Yields ((Entry.mk (node.ptes idx) idx paddr).replace C memory (.mapped item)) fun (old, changed) =>
      old = .absent ∧ memory.Rewrites paddr idx
        (.mapped (readPaddr (C.itemRawInfo item).1) (readProp (C.itemRawInfo item).2.2)) changed := by
  rw [slots_of_node found, slot_eq_empty] at empty
  rw [replace, node_eq_ok.mpr found, bind_ok, matchesLevel]
  refine (assert_yields _).bind ?_
  intro _ matched
  rw [decide_eq_true_eq] at matched
  simp only [fromPte, empty, bind_ok, recount, isAbsent, Bool.not_false, and_self, if_true]
  refine (add_yields 65535 node.nrChildren 1).bind ?_
  rintro count -
  rw [intoPte, bind_ok]
  refine Yields.bind (writePte_yields _ (setNode_nodes_self _ _ _)) ?_
  rintro _ rfl
  rw [setNode_setNode, matched]
  have rewrites := rewrites_setNode idx count found
    (laws.page (C.itemRawInfo item).1 (C.itemRawInfo item).2.2 low high)
  exact ⟨rfl, rewrites⟩

theorem protect_yields (op : PageProperty → PageProperty) {frame : Nat} {prop : PageProperty}
    (found : memory.nodes paddr = some node) (low : 0 < node.level) (high : node.level ≤ C.highestTranslationLevel)
    (mapped : memory.slots paddr idx = .leaf (frame, prop)) :
    Yields ((Entry.mk (node.ptes idx) idx paddr).protect memory op) fun changed =>
      (op prop = prop ∧ changed = memory) ∨
        memory.Rewrites paddr idx (.mapped (readPaddr frame) (readProp (op prop))) changed := by
  rw [slots_of_node found, slot_eq_leaf] at mapped
  rw [protect, node_eq_ok.mpr found, bind_ok, mapped]
  simp only
  split
  · rename_i unchanged
    exact .inl ⟨unchanged.symm, rfl⟩
  · refine (writePte_yields _ found).mono ?_
    rintro _ rfl
    exact .inr (rewrites_setNode idx node.nrChildren found (laws.page frame (op prop) low high))

end Entry

end Kei.Mm
