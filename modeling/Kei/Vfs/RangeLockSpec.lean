import Kei.Vfs.RangeLockGroup
import Mathlib.Data.List.Nodup

/-! The lock list as a map from bytes to the locks held on them. The list is a sequence of
groups, one per owner; a call changes one group, and what it does there was shown for the
group alone. -/

namespace Kei.Vfs

open Library Checked RangeLockList List

variable {ω : Type}

def Holds (list : RangeLockList ω) (owner : ω) (offset : Nat) (type : RangeLockType) : Prop :=
  ∃ item ∈ list, item.owner = owner ∧ item.type = type ∧ item.range.Contains offset

structure Cut (list : RangeLockList ω) (owner : ω) (left group right : RangeLockList ω) : Prop where
  whole : list = left ++ group ++ right
  leftOthers : ∀ item ∈ left, item.owner ≠ owner
  owned : ∀ item ∈ group, item.owner = owner
  rightOthers : ∀ item ∈ right, item.owner ≠ owner

variable {owner : ω}

theorem Cut.holds_iff [DecidableEq ω] {list left group right : RangeLockList ω}
    (cut : Cut list owner left group right)
    (other : ω) (offset : Nat) (type : RangeLockType) :
    Holds list other offset type ↔
      if other = owner then LockedAt group offset type else Holds (left ++ right) other offset type := by
  obtain ⟨rfl, leftOthers, owned, rightOthers⟩ := cut
  simp only [Holds, LockedAt, mem_append]
  split <;> grind

structure Groups (groups : List (ω × RangeLockList ω)) : Prop where
  distinct : (groups.map Prod.fst).Nodup
  owned : ∀ group ∈ groups, ∀ item ∈ group.2, item.owner = group.1
  sorted : ∀ group ∈ groups, group.2.Pairwise Before
  nonempty : ∀ group ∈ groups, group.2 ≠ []

def Grouped (list : RangeLockList ω) : Prop := ∃ groups, Groups groups ∧ list = groups.flatMap Prod.snd

theorem Groups.others {groups : List (ω × RangeLockList ω)} (grouped : Groups groups)
    (absent : owner ∉ groups.map Prod.fst) : ∀ item ∈ groups.flatMap Prod.snd, item.owner ≠ owner := by
  intro item member same
  obtain ⟨group, here, member⟩ := mem_flatMap.mp member
  refine absent (mem_map.mpr ⟨group, here, ?_⟩)
  rw [← grouped.owned group here item member, same]

theorem Groups.sublist {groups fewer : List (ω × RangeLockList ω)} (grouped : Groups groups)
    (inside : fewer.Sublist groups) : Groups fewer where
  distinct := grouped.distinct.sublist (inside.map _)
  owned := fun group member => grouped.owned group (inside.subset member)
  sorted := fun group member => grouped.sorted group (inside.subset member)
  nonempty := fun group member => grouped.nonempty group (inside.subset member)

theorem Groups.replace {left right : List (ω × RangeLockList ω)} {group changed : RangeLockList ω}
    (grouped : Groups (left ++ (owner, group) :: right)) (owned : ∀ item ∈ changed, item.owner = owner)
    (sorted : changed.Pairwise Before) :
    Grouped (left.flatMap Prod.snd ++ changed ++ right.flatMap Prod.snd) := by
  by_cases empty : changed = []
  · refine ⟨left ++ right, grouped.sublist ?_, by simp [empty]⟩
    exact List.Sublist.append_left (sublist_cons_self _ _) _
  · have each {p : ω × RangeLockList ω → Prop} (all : ∀ other ∈ left ++ (owner, group) :: right, p other)
        (own : p (owner, changed)) : ∀ other ∈ left ++ (owner, changed) :: right, p other := by
      rw [forall_mem_append, forall_mem_cons] at all ⊢
      exact ⟨all.1, own, all.2.2⟩
    refine ⟨left ++ (owner, changed) :: right, ⟨?_, each grouped.owned owned, each grouped.sorted sorted,
      each grouped.nonempty empty⟩, by simp⟩
    simpa using grouped.distinct

variable {list : RangeLockList ω}

theorem Grouped.cut [DecidableEq ω] (grouped : Grouped list) (owner : ω) :
    (∀ item ∈ list, item.owner ≠ owner) ∨
      ∃ left group right, Cut list owner left group right ∧ group.Pairwise Before ∧ group ≠ [] ∧
        ∀ changed : RangeLockList ω, (∀ item ∈ changed, item.owner = owner) → changed.Pairwise Before →
          Grouped (left ++ changed ++ right) := by
  obtain ⟨groups, grouped, rfl⟩ := grouped
  by_cases present : owner ∈ groups.map Prod.fst
  · obtain ⟨⟨_, group⟩, member, rfl⟩ := mem_map.mp present
    obtain ⟨left, right, rfl⟩ := append_of_mem member
    have distinct := grouped.distinct
    simp only [map_append, map_cons, nodup_append, nodup_cons] at distinct
    refine .inr ⟨left.flatMap Prod.snd, group, right.flatMap Prod.snd, ⟨by simp, ?_, ?_, ?_⟩, ?_, ?_, ?_⟩
    · refine (grouped.sublist (sublist_append_left _ _)).others fun found => ?_
      exact distinct.2.2 _ found _ mem_cons_self rfl
    · exact grouped.owned _ member
    · refine (grouped.sublist ?_).others distinct.2.1.1
      exact (sublist_cons_self _ _).trans (sublist_append_right _ _)
    · exact grouped.sorted _ member
    · exact grouped.nonempty _ member
    · intro changed owned sorted
      exact grouped.replace owned sorted
  · exact .inl (grouped.others present)

variable {lock : RangeLockItem ω}

theorem Grouped.push (grouped : Grouped list)
    (absent : ∀ item ∈ list, item.owner ≠ lock.owner) : Grouped (list ++ [lock]) := by
  obtain ⟨groups, grouped, rfl⟩ := grouped
  refine ⟨groups ++ [(lock.owner, [lock])], ⟨?_, forall_mem_append.mpr ⟨grouped.owned, by simp⟩,
    forall_mem_append.mpr ⟨grouped.sorted, by simp⟩, forall_mem_append.mpr ⟨grouped.nonempty, by simp⟩⟩,
      by simp⟩
  rw [map_append, nodup_append]
  refine ⟨grouped.distinct, by simp, ?_⟩
  rintro _ member _ last rfl
  obtain rfl := mem_singleton.mp last
  obtain ⟨group, here, same⟩ := mem_map.mp member
  obtain ⟨item, inside⟩ := exists_mem_of_ne_nil _ (grouped.nonempty group here)
  refine absent item (mem_flatMap.mpr ⟨group, here, inside⟩) ?_
  rw [grouped.owned group here item inside, same]

theorem Cut.change {list left group right changed : RangeLockList ω}
    (cut : Cut list owner left group right) (owned : ∀ item ∈ changed, item.owner = owner) :
    Cut (left ++ changed ++ right) owner left changed right :=
  ⟨rfl, cut.leftOthers, owned, cut.rightOthers⟩

variable [DecidableEq ω]

theorem settle_append {group right : RangeLockList ω}
    (owned : ∀ item ∈ group, item.owner = lock.owner) (others : ∀ item ∈ right, item.owner ≠ lock.owner) :
    settle lock (group ++ right) = settle lock group ++ right := by
  induction group generalizing lock with
  | nil =>
    cases right with
    | nil => rfl
    | cons next right =>
      simp only [nil_append, settle]
      rw [if_pos (others next mem_cons_self)]
      rfl
  | cons next rest ih =>
    rw [forall_mem_cons] at owned
    have later := ih owned.2 others
    have merged := @ih { next with range := next.range.joined lock.range }
      (fun item member => (owned.2 item member).trans owned.1.symm)
      (fun item member same => others item member (same.trans owned.1))
    rw [cons_append, settle, settle, later, merged]
    repeat' split
    all_goals rfl

theorem release_append {left group right : RangeLockList ω}
    (leftOthers : ∀ item ∈ left, item.owner ≠ lock.owner)
    (rightOthers : ∀ item ∈ right, item.owner ≠ lock.owner) :
    release lock (left ++ group ++ right) = left ++ release lock group ++ right := by
  have behind : release lock (group ++ right) = release lock group ++ right := by
    induction group with
    | nil => exact release_none rightOthers
    | cons existing rest ih =>
      rw [cons_append, release, release, ih]
      repeat' split
      all_goals rfl
  rw [append_assoc, release_left leftOthers, behind, append_assoc]

theorem insertLockIntoList_cut (grouped : Grouped list) (lock : RangeLockItem ω) :
    ∃ left group right, Cut list lock.owner left group right ∧ group.Pairwise Before ∧
      insertLockIntoList list lock = .ok (left ++ settle lock group ++ right) ∧
      Grouped (left ++ settle lock group ++ right) := by
  rcases grouped.cut lock.owner with absent | ⟨left, group, right, cut, sorted, nonempty, replace⟩
  · have unfound : list.findIdx? (fun existing => existing.owner = lock.owner) = none := by
      simpa [List.findIdx?_eq_none_iff] using absent
    refine ⟨list, [], [], ⟨by simp, absent, by simp, by simp⟩, by simp, ?_, ?_⟩
    · rw [insertLockIntoList_eq, unfound]
      simp [settle]
    · simpa [settle] using grouped.push absent
  · refine ⟨left, group, right, cut, sorted, ?_, ?_⟩
    · obtain ⟨rfl, leftOthers, owned, rightOthers⟩ := cut
      have found : (left ++ group ++ right).findIdx? (fun existing => existing.owner = lock.owner) =
          some left.length := by
        obtain ⟨first, rest, rfl⟩ := exists_cons_of_ne_nil nonempty
        have unfound : left.findIdx? (fun existing => existing.owner = lock.owner) = none := by
          simpa [List.findIdx?_eq_none_iff] using leftOthers
        simp [append_assoc, List.findIdx?_append, unfound, List.findIdx?_cons, owned first]
      rw [insertLockIntoList_eq, found]
      simp only [append_assoc, take_left, drop_left, settle_append owned rightOthers]
    · exact replace _ (settle_owned cut.owned) (settle_sorted cut.owned sorted)

theorem unlock_cut (grouped : Grouped list) (lock : RangeLockItem ω) :
    ∃ left group right, Cut list lock.owner left group right ∧ group.Pairwise Before ∧
      unlock list lock = .ok (left ++ release lock group ++ right) ∧
      Grouped (left ++ release lock group ++ right) := by
  rcases grouped.cut lock.owner with absent | ⟨left, group, right, cut, sorted, _, replace⟩
  · refine ⟨list, [], [], ⟨by simp, absent, by simp, by simp⟩, by simp, ?_, by simpa [release] using grouped⟩
    rw [unlock_eq, release_none absent]
    simp [release]
  · refine ⟨left, group, right, cut, sorted, ?_, ?_⟩
    · rw [unlock_eq, cut.whole, release_append cut.leftOthers cut.rightOthers]
    · exact replace _ (release_owned cut.owned) (release_sorted cut.owned sorted)

theorem insertLockIntoList_spec (grouped : Grouped list) (lock : RangeLockItem ω) :
    ∃ next, insertLockIntoList list lock = .ok next ∧ Grouped next ∧
      ∀ other offset type, Holds next other offset type ↔
        if other = lock.owner ∧ lock.range.Contains offset then type = lock.type
        else Holds list other offset type := by
  obtain ⟨left, group, right, cut, sorted, ran, kept⟩ := insertLockIntoList_cut grouped lock
  refine ⟨_, ran, kept, ?_⟩
  intro other offset type
  rw [(cut.change (settle_owned cut.owned)).holds_iff, cut.holds_iff, settle_lockedAt cut.owned sorted]
  by_cases same : other = lock.owner
  · simp only [same, if_true, true_and]
  · simp only [same, if_false, false_and]

theorem unlock_spec (grouped : Grouped list) (lock : RangeLockItem ω) :
    ∃ next, unlock list lock = .ok next ∧ Grouped next ∧
      ∀ other offset type, Holds next other offset type ↔
        Holds list other offset type ∧ ¬(other = lock.owner ∧ lock.range.Contains offset) := by
  obtain ⟨left, group, right, cut, sorted, ran, kept⟩ := unlock_cut grouped lock
  refine ⟨_, ran, kept, ?_⟩
  intro other offset type
  rw [(cut.change (release_owned cut.owned)).holds_iff, cut.holds_iff, release_lockedAt cut.owned sorted]
  by_cases same : other = lock.owner
  · simp only [same, if_true, true_and]
  · simp only [same, if_false, false_and, not_false_eq_true, and_true]

def Conflicts (list : RangeLockList ω) (lock : RangeLockItem ω) : Prop :=
  ∃ other offset type, other ≠ lock.owner ∧ lock.range.Contains offset ∧ Holds list other offset type ∧
    (lock.type = .writeLock ∨ type = .writeLock)

theorem FileRange.overlaps_iff (first second : FileRange) :
    first.Overlaps second ↔ ∃ offset, first.Contains offset ∧ second.Contains offset := by
  have one := first.valid
  have two := second.valid
  unfold FileRange.Overlaps FileRange.Contains
  constructor
  · intro overlaps
    exact ⟨max first.start second.start, by omega, by omega⟩
  · rintro ⟨offset, inFirst, inSecond⟩
    omega

theorem conflictWith_iff (lock existing : RangeLockItem ω) :
    lock.conflictWith existing = true ↔ existing.owner ≠ lock.owner ∧ lock.range.Overlaps existing.range ∧
      (lock.type = .writeLock ∨ existing.type = .writeLock) := by
  unfold RangeLockItem.conflictWith
  by_cases same : lock.owner = existing.owner
  · simp [same]
  · have differs : existing.owner ≠ lock.owner := fun equal => same equal.symm
    simp [same, differs, FileRange.overlapWith_eq_none_iff]

theorem find_conflict_iff (list : RangeLockList ω) (lock : RangeLockItem ω) :
    (list.find? lock.conflictWith).isSome = true ↔ Conflicts list lock := by
  rw [List.find?_isSome]
  constructor
  · rintro ⟨existing, member, conflict⟩
    obtain ⟨owner, overlaps, write⟩ := (conflictWith_iff lock existing).mp conflict
    obtain ⟨offset, inside, covered⟩ := (FileRange.overlaps_iff _ _).mp overlaps
    exact ⟨existing.owner, offset, existing.type, owner, inside, ⟨existing, member, rfl, rfl, covered⟩, write⟩
  · rintro ⟨_, offset, _, owner, inside, ⟨existing, member, rfl, rfl, covered⟩, write⟩
    refine ⟨existing, member, (conflictWith_iff lock existing).mpr ⟨owner, ?_, write⟩⟩
    exact (FileRange.overlaps_iff _ _).mpr ⟨offset, inside, covered⟩

theorem testLock_spec (list : RangeLockList ω) (lock : RangeLockItem ω) :
    (Conflicts list lock → testLock list lock ∈ list ∧
      lock.conflictWith (testLock list lock) = true) ∧
      (¬Conflicts list lock → testLock list lock = { lock with type := .unlock }) := by
  unfold testLock
  rw [← find_conflict_iff]
  cases found : list.find? lock.conflictWith with
  | none => simp
  | some existing =>
    refine ⟨fun _ => ⟨mem_of_find?_eq_some found, List.find?_some found⟩, fun free => ?_⟩
    exact absurd rfl free

def Exclusive (list : RangeLockList ω) : Prop :=
  ∀ first second offset one two, first ≠ second → Holds list first offset one → Holds list second offset two →
    one = .readLock ∧ two = .readLock

/-- The items of an owner are sorted, disjoint and coalesced; that they are not empty is part
of their type. -/
def Tidy (list : RangeLockList ω) : Prop :=
  ∀ owner, (list.filter fun item => item.owner = owner).Pairwise Before

theorem Grouped.tidy (grouped : Grouped list) : Tidy list := by
  intro owner
  rcases grouped.cut owner with absent | ⟨left, group, right, cut, sorted, _⟩
  · rw [filter_eq_nil_iff.mpr (by simpa using absent)]
    exact List.Pairwise.nil
  · obtain ⟨rfl, leftOthers, owned, rightOthers⟩ := cut
    have noLeft : left.filter (fun item => item.owner = owner) = [] := by simpa using leftOthers
    have noRight : right.filter (fun item => item.owner = owner) = [] := by simpa using rightOthers
    have all : group.filter (fun item => item.owner = owner) = group := by simpa using owned
    rw [filter_append, filter_append, noLeft, noRight, all, nil_append, append_nil]
    exact sorted

structure Consistent (list : RangeLockList ω) : Prop where
  grouped : Grouped list
  locking : ∀ owner offset type, Holds list owner offset type → type ≠ .unlock
  exclusive : Exclusive list

inductive LockCall (ω : Type)
  | setRangeLock (lock : RangeLockItem ω)
  | unlock (lock : RangeLockItem ω)

namespace RangeLockList

def step (list : RangeLockList ω) : LockCall ω → Checked (Except Errno Unit × RangeLockList ω)
  | .setRangeLock lock => setRangeLock list lock
  | .unlock lock => do return (.ok (), ← unlock list lock)

def Unlocks (list : RangeLockList ω) (lock : RangeLockItem ω) (result : Except Errno Unit)
    (next : RangeLockList ω) : Prop :=
  result = .ok () ∧ ∀ other offset type, Holds next other offset type ↔
    Holds list other offset type ∧ ¬(other = lock.owner ∧ lock.range.Contains offset)

def Locks (list : RangeLockList ω) (lock : RangeLockItem ω) (result : Except Errno Unit)
    (next : RangeLockList ω) : Prop :=
  (Conflicts list lock → result = .error .eagain ∧ next = list) ∧
    (¬Conflicts list lock → result = .ok () ∧ ∀ other offset type, Holds next other offset type ↔
      if other = lock.owner ∧ lock.range.Contains offset then type = lock.type
      else Holds list other offset type)

def Obeys (list : RangeLockList ω) (result : Except Errno Unit) (next : RangeLockList ω) : LockCall ω → Prop
  | .setRangeLock lock => if lock.type = .unlock then Unlocks list lock result next else Locks list lock result next
  | .unlock lock => Unlocks list lock result next

variable {list : RangeLockList ω}

theorem unlocks_consistent (consistent : Consistent list) (lock : RangeLockItem ω) :
    ∃ next, unlock list lock = .ok next ∧ Consistent next ∧ Unlocks list lock (.ok ()) next := by
  obtain ⟨next, ran, grouped, holds⟩ := unlock_spec consistent.grouped lock
  refine ⟨next, ran, ⟨grouped, ?_, ?_⟩, rfl, holds⟩
  · intro owner offset type held
    exact consistent.locking _ _ _ ((holds _ _ _).mp held).1
  · intro first second offset one two differ held other
    exact consistent.exclusive _ _ _ _ _ differ ((holds _ _ _).mp held).1 ((holds _ _ _).mp other).1

theorem locks_consistent (consistent : Consistent list) {lock : RangeLockItem ω}
    (locking : lock.type ≠ .unlock) :
    ∃ result next, trySetLock list lock = .ok (result, next) ∧ Consistent next ∧ Locks list lock result next := by
  by_cases conflict : Conflicts list lock
  · refine ⟨.error .eagain, list, ?_, consistent, fun _ => ⟨rfl, rfl⟩, fun free => absurd conflict free⟩
    rw [trySetLock, if_pos ((find_conflict_iff list lock).mpr conflict)]
    rfl
  · obtain ⟨next, ran, grouped, holds⟩ := insertLockIntoList_spec consistent.grouped lock
    have shared (other : ω) (offset : Nat) (type : RangeLockType) (differs : other ≠ lock.owner)
        (inside : lock.range.Contains offset) (held : Holds list other offset type) :
        lock.type = .readLock ∧ type = .readLock := by
      have both : ¬(lock.type = .writeLock ∨ type = .writeLock) := fun write =>
        conflict ⟨other, offset, type, differs, inside, held, write⟩
      have other := consistent.locking _ _ _ held
      cases mine : lock.type <;> cases type <;> simp_all
    refine ⟨.ok (), next, ?_, ⟨grouped, ?_, ?_⟩, fun blocked => absurd blocked conflict, fun _ =>
      ⟨rfl, holds⟩⟩
    · rw [trySetLock, if_neg (by rwa [find_conflict_iff]), ran]
      rfl
    · intro owner offset type held
      rw [holds] at held
      split at held
      · rw [held]
        exact locking
      · exact consistent.locking _ _ _ held
    · intro first second offset one two differ held other
      rw [holds] at held other
      split at held <;> split at other
      · rename_i mine theirs
        exact absurd (mine.1.trans theirs.1.symm) differ
      · rename_i mine theirs
        rw [held]
        exact shared second offset two (fun same => theirs ⟨same, mine.2⟩) mine.2 other
      · rename_i mine theirs
        rw [other]
        exact (shared first offset one (fun same => mine ⟨same, theirs.2⟩) theirs.2 held).symm
      · exact consistent.exclusive _ _ _ _ _ differ held other

theorem step_consistent (consistent : Consistent list) (call : LockCall ω) :
    ∃ result next, step list call = .ok (result, next) ∧ Consistent next ∧ Obeys list result next call := by
  cases call with
  | setRangeLock lock =>
    by_cases unlocking : lock.type = .unlock
    · obtain ⟨next, ran, kept, effect⟩ := unlocks_consistent consistent lock
      refine ⟨.ok (), next, ?_, kept, ?_⟩
      · rw [step, setRangeLock, if_pos unlocking, ran]
        rfl
      · rw [Obeys, if_pos unlocking]
        exact effect
    · obtain ⟨result, next, ran, kept, effect⟩ := locks_consistent consistent unlocking
      refine ⟨result, next, ?_, kept, ?_⟩
      · rw [step, setRangeLock, if_neg unlocking, ran]
      · rw [Obeys, if_neg unlocking]
        exact effect
  | unlock lock =>
    obtain ⟨next, ran, kept, effect⟩ := unlocks_consistent consistent lock
    refine ⟨.ok (), next, ?_, kept, effect⟩
    rw [step, ran]
    rfl

theorem feed_consistent (calls : List (LockCall ω)) :
    ∃ results list, feed step ([] : RangeLockList ω) calls = .ok (results, list) ∧ Consistent list := by
  have start : Consistent ([] : RangeLockList ω) := by
    refine ⟨⟨[], ⟨by simp, by simp, by simp, by simp⟩, rfl⟩, ?_, ?_⟩
    · rintro _ _ _ ⟨_, member, _⟩
      cases member
    · rintro _ _ _ _ _ _ ⟨_, member, _⟩
      cases member
  refine feed_invariant (fun _ _ list => Consistent list) start ?_ calls
  intro _ _ list call consistent
  obtain ⟨result, next, ran, kept, _⟩ := step_consistent consistent call
  exact ⟨result, next, ran, kept⟩

/-- Any calls of any owners: none panics, bytes are shared only by readers, the items of
every owner are in order, and the next call does to the held bytes what POSIX says. -/
theorem record_locks (calls : List (LockCall ω)) :
    ∃ results list, feed step ([] : RangeLockList ω) calls = .ok (results, list) ∧ Exclusive list ∧ Tidy list ∧
      ∀ call, ∃ result next, step list call = .ok (result, next) ∧ Obeys list result next call := by
  obtain ⟨results, list, ran, consistent⟩ := feed_consistent calls
  refine ⟨results, list, ran, consistent.exclusive, consistent.grouped.tidy, fun call => ?_⟩
  obtain ⟨result, next, stepped, _, effect⟩ := step_consistent consistent call
  exact ⟨result, next, stepped, effect⟩

theorem testLock_free_iff (consistent : Consistent list) (lock : RangeLockItem ω) :
    (testLock list lock).type = .unlock ↔ ¬Conflicts list lock := by
  obtain ⟨blocked, free⟩ := testLock_spec list lock
  refine ⟨fun unlocked conflict => ?_, fun none => by rw [free none]⟩
  obtain ⟨member, _⟩ := blocked conflict
  exact consistent.locking _ _ _ ⟨_, member, rfl, rfl, Nat.le_refl _, (testLock list lock).range.valid⟩ unlocked

/-- After any calls of any owners a test announces what a request will get: it is granted exactly if
it is reported as free, and otherwise the report is a lock in the list that it conflicts with. -/
theorem testLock_announces (calls : List (LockCall ω)) :
    ∃ results list, feed step ([] : RangeLockList ω) calls = .ok (results, list) ∧
      ∀ lock : RangeLockItem ω, lock.type ≠ .unlock →
        ∃ result next, step list (.setRangeLock lock) = .ok (result, next) ∧
          if (testLock list lock).type = .unlock then result = .ok ()
          else result = .error .eagain ∧ next = list ∧ testLock list lock ∈ list ∧
            lock.conflictWith (testLock list lock) = true := by
  obtain ⟨results, list, ran, consistent⟩ := feed_consistent calls
  refine ⟨results, list, ran, fun lock locking => ?_⟩
  obtain ⟨result, next, tried, _, refused, granted⟩ := locks_consistent consistent locking
  refine ⟨result, next, by rw [step, setRangeLock, if_neg locking, tried], ?_⟩
  have free := testLock_free_iff consistent lock
  split
  case isTrue unlocked => exact (granted (free.mp unlocked)).1
  case isFalse blocked =>
    have conflict : Conflicts list lock := not_not.mp fun none => blocked (free.mpr none)
    exact ⟨(refused conflict).1, (refused conflict).2, (testLock_spec list lock).1 conflict⟩

end RangeLockList

end Kei.Vfs
