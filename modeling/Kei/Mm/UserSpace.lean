import Kei.Mm.Mapping
import Kei.Mm.VmSpace

/-! The page tables of an address space: how its entries read back, which ranges its cursors may
have, and that it starts with sound tables that show no page. -/

namespace Kei.Mm

open Library Checked PteTrait PageTableEntry Function

def userPage (page : Nat) : Prop := page < 2 ^ 35

theorem pteLaws : PteLaws PageTableEntry 1 PageTableEntry.Addressable (· &&& physAddrMask)
    readBack where
  zeroed := toRepr_zeroed
  table := by
    intro paddr level upper addressable inner
    have reads := toRepr_newPt paddr upper PageTableFlags.empty (by omega)
    rw [addressable.masked] at reads
    exact reads
  page := by
    intro paddr prop level low high
    obtain rfl : level = 1 := by omega
    exact toRepr_newPage paddr 1 prop

/-- Everything but the new root is as it was, and the root only points to tables of the kernel. -/
structure Rooted (memory : Memory PageTableEntry) (root : Nat) (free : List Nat)
    (changed : Memory PageTableEntry) : Prop where
  free : changed.free = free
  others : ∀ {other}, other ≠ root → changed.nodes other = memory.nodes other
  root : ∃ node, changed.nodes root = some node ∧ node.level = 4 ∧ node.stray = false ∧
    ∀ i, (i < 256 → (toRepr (node.ptes i) 4).slot = .empty) ∧
      ∀ value, (toRepr (node.ptes i) 4).slot ≠ .leaf value

theorem sharedTable_yields (memory : Memory PageTableEntry) (kernelRoot i : Nat) :
    Yields (sharedTable memory kernelRoot i) fun _ => True := by
  refine (memory.entry_yields kernelRoot i).bind fun entry _ => ?_
  refine (memory.node_yields _).bind fun node _ => ?_
  split
  · refine (memory.node_yields _).bind fun child _ => ?_
    exact (assert_yields _).bind fun _ _ => trivial
  · exact Panic.noConfusion

theorem createUserPageTable_yields (memory : Memory PageTableEntry) (kernelRoot : Nat) :
    Yields (createUserPageTable memory kernelRoot) fun (root, changed) =>
      ∃ free, memory.free = root :: free ∧ Rooted memory root free changed := by
  unfold createUserPageTable
  cases supply : memory.free with
  | nil =>
    rw [Memory.alloc, supply]
    exact Panic.noConfusion
  | cons root free =>
    simp only [Memory.alloc, supply, bind_ok]
    refine Yields.bind (runAll_yields (Rooted memory root free) ?_ ?_) ?_
    · intro state i member rooted
      refine (sharedTable_yields state kernelRoot i).bind fun pt _ => ?_
      obtain ⟨node, found, level, stray, entries⟩ := rooted.root
      refine (Memory.writePte_yields _ found).mono ?_
      rintro _ rfl
      refine ⟨rooted.free, ?_, ?_⟩
      · intro other apart
        exact (update_of_ne apart _ _).trans (rooted.others apart)
      · refine ⟨_, Memory.setNode_nodes_self _ _ _, level, stray, ?_⟩
        intro slot
        by_cases same : slot = i
        · subst same
          obtain ⟨position, _, rfl⟩ := List.mem_range'.mp member
          have reads := toRepr_newPt pt 4 PageTableFlags.empty (by decide)
          simp only [update_self]
          rw [show toRepr (fromRepr (.pageTable pt PageTableFlags.empty) 4 : PageTableEntry) 4 = _ from reads]
          exact ⟨by omega, by simp [PteScalar.slot]⟩
        · simp only [update_of_ne same]
          exact entries slot
    · refine ⟨rfl, fun apart => update_of_ne apart _ _, _, Memory.setNode_nodes_self _ _ _, rfl, rfl, ?_⟩
      intro slot
      simp [toRepr_zeroed, PteScalar.slot]
    · intro changed rooted
      exact ⟨free, rfl, rooted⟩

variable {page : Nat}

theorem userPage.topIndex (within : userPage page) : page / 512 ^ 3 % 512 < 256 := by
  have bound : page < 2 ^ 35 := within
  omega

variable {memory changed : Memory PageTableEntry}

theorem Rooted.lookup_eq_none {root : Nat} {free : List Nat}
    (maxPaddr : Nat) (rooted : Rooted memory root free changed) (within : userPage page) :
    changed.lookup (userPtConfig maxPaddr) root page = none := by
  obtain ⟨node, found, level, _, entries⟩ := rooted.root
  have slot : changed.slots root (page / 512 ^ 3 % 512) = .empty := by
    rw [Memory.slots_of_node found, level]
    exact (entries _).1 within.topIndex
  rw [Memory.lookup, show (userPtConfig maxPaddr).nrLevels = 3 + 1 from rfl, Radix.lookup, slot]

theorem Rooted.sound {root : Nat} {free : List Nat}
    (maxPaddr : Nat) (rooted : Rooted memory root free changed) (supply : memory.free = root :: free)
    (fresh : ∀ {paddr}, paddr ∈ memory.free → memory.nodes paddr = none ∧ PageTableEntry.Addressable paddr)
    (distinct : memory.free.Nodup) :
    changed.Sound (userPtConfig maxPaddr) userPage PageTableEntry.Addressable root
      (update (fun _ => none) root (some (4, 0))) := by
  obtain ⟨node, found, level, stray, entries⟩ := rooted.root
  have slots (idx : Nat) : changed.slots root idx = (toRepr (node.ptes idx) 4).slot := by
    rw [Memory.slots_of_node found, level]
  have only {table : Nat} {spot : Nat × Nat}
      (placed : update (fun _ => none) root (some (4, 0)) table = some spot) :
      table = root ∧ spot = (4, 0) := by
    by_cases same : table = root
    · subst same
      rw [update_self] at placed
      exact ⟨rfl, (Option.some.inj placed).symm⟩
    · rw [update_of_ne same] at placed
      cases placed
  rw [supply, List.nodup_cons] at distinct
  refine ⟨⟨by decide, update_self _ _ _, ?_, ?_, ?_, ?_, ?_⟩, ?_, ?_, ?_, ?_, ?_⟩
  · intro page within
    exact Nat.lt_of_lt_of_le within (show 2 ^ 35 ≤ 512 ^ 4 by decide)
  · intro table tableLevel number placed
    obtain ⟨_, spot⟩ := only placed
    cases spot
    exact ⟨by decide, Nat.le_refl _⟩
  · intro table number placed
    exact (only placed).1
  · intro table below upper page within placed slot
    obtain ⟨rfl, spot⟩ := only placed
    obtain rfl : upper = 3 := by
      have := congrArg Prod.fst spot
      simp only at this
      omega
    rw [slots, (entries _).1 within.topIndex] at slot
    cases slot
  · intro table tableLevel number placed inner
    exact absurd (only placed).1 inner
  · intro paddr tableLevel number placed
    obtain ⟨rfl, spot⟩ := only placed
    cases spot
    exact ⟨node, found, level⟩
  · intro paddr spot other placed foundOther
    obtain ⟨rfl, _⟩ := only placed
    rw [found] at foundOther
    cases foundOther
    exact stray
  · intro paddr tableLevel number idx value placed _
    obtain ⟨rfl, _⟩ := only placed
    rw [slots]
    exact (entries idx).2 value
  · intro paddr member
    rw [rooted.free] at member
    obtain ⟨unused, storable⟩ := fresh (show paddr ∈ memory.free by
      rw [supply]
      exact List.mem_cons_of_mem _ member)
    refine ⟨?_, storable⟩
    rw [rooted.others ?_, unused]
    rintro rfl
    exact distinct.1 member
  · rw [rooted.free]
    exact distinct.2

/-- What the entry of a user page reads back as, apart from the address: of its flags only the one
for writing is left. -/
def userView (w : Bool) : PageProperty :=
  ⟨⟨true, w, true, true, false, false⟩, .writeback, ⟨true, false, false⟩⟩

theorem readBack_user (flags : PageFlags) (cache : CachePolicy) (avail1 : Bool) :
    readBack ⟨flags, cache, ⟨true, false, avail1⟩⟩ = userView flags.w := by
  simp [readBack, userView]

variable {maxPaddr : Nat}

theorem userPage.bounded (within : userPage page) : page < 512 ^ maxNrLevels :=
  Nat.lt_of_lt_of_le within (by decide)

theorem UFrame.fromRaw_ends (maxPaddr paddr : Nat) : UFrame.fromRaw maxPaddr paddr ≠ .error .hang := by
  unfold UFrame.fromRaw
  split <;> simp

theorem itemFromRaw_ends (paddr level : Nat) (prop : PageProperty) :
    (userPtConfig maxPaddr).itemFromRaw paddr level prop ≠ .error .hang := by
  have yields : Yields ((userPtConfig maxPaddr).itemFromRaw paddr level prop) fun _ => True := by
    refine (assert_yields _).bind fun _ _ => ?_
    split
    · exact trivial
    · exact (yields_of_ends (UFrame.fromRaw_ends maxPaddr paddr)).bind fun _ _ => trivial
  exact yields.ends

theorem isValidRange_yields (start stop : Nat) :
    Yields (isValidRange (userPtConfig maxPaddr) start stop) fun valid => valid = true → start < stop →
      ∀ va, start ≤ va → va < stop → userPage (va / 4096) := by
  have range : vaddrRange (userPtConfig maxPaddr) = (0, 2 ^ 47 - 1) := by
    simp [vaddrRange, userPtConfig, pteIndexBitOffset, usizeMax]
  rw [isValidRange, range]
  split
  · intro _ order
    omega
  · rw [if_pos (Nat.zero_le _)]
    unfold Checked.sub
    split
    · intro valid order va after before
      have last : stop - 1 ≤ 2 ^ 47 - 1 := of_decide_eq_true valid
      show va / 4096 < 2 ^ 35
      omega
    · exact Panic.noConfusion

end Kei.Mm
