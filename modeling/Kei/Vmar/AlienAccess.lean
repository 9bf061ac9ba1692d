import Kei.Vmar.Mapping

/-! Access to a page of another process (`access_alien.rs`): the page is queried and faulted in until
it has the required flag. Of the address space only the page, its entry of the x86 page table and its
mapping matter. -/

namespace Kei.Vmar

open Library Checked

inductive Errno
  | EACCES
  | EFAULT
  | EOPNOTSUPP
  | ENOMEM
  | EIO
  deriving DecidableEq

inductive Access
  | read
  | write
  deriving DecidableEq

structure PageFlags where
  r : Bool
  w : Bool
  x : Bool
  accessed : Bool
  dirty : Bool

open PageFlags

def PageFlags.contains (flags : PageFlags) : Access → Bool
  | .read => flags.r
  | .write => flags.w

structure PageTableEntry where
  present : Bool := false
  writable : Bool := false
  noExecute : Bool := false
  accessed : Bool := false
  dirty : Bool := false
  huge : Bool := false

namespace PageTableEntry

def isPresent (entry : PageTableEntry) : Bool := entry.present || entry.huge

def prop (entry : PageTableEntry) : PageFlags :=
  ⟨entry.present, entry.writable, !entry.noExecute, entry.accessed, entry.dirty⟩

/-- A page without permissions is not `PRESENT`; the bit `HUGE` tells it from an absent one. -/
def newPage (flags : PageFlags) : PageTableEntry :=
  ⟨flags.r, flags.w, !flags.x, flags.accessed, flags.dirty, true⟩

end PageTableEntry

/-- What the frames are like in one turn: whether none could be had (for a page around this one, perhaps
after this one was mapped), and whether a mapped frame has no other user. -/
structure Supply where
  failure : Option (Errno × Bool) := none
  onlyReference : Bool := true

structure Page where
  mapping : Option VmMapping
  entry : PageTableEntry := {}
  /-- Whether the page lies within the valid size of the mapped object. -/
  insideVmo : Bool := true

namespace VmMapping

def isVmo (mapping : VmMapping) : Bool :=
  match mapping.mappedMem with
  | .vmo _ _ => true
  | .anonymous | .device => false

def checkPermsForPageFault (mapping : VmMapping) : Access → Bool
  | .read => mapping.perms.read || mapping.perms.mayRead
  | .write => mapping.perms.write || mapping.isCow

end VmMapping

namespace Page

def query (page : Page) : Option PageFlags :=
  if page.entry.isPresent then some page.entry.prop else none

def mapped (page : Page) (flags : PageFlags) : Page := { page with entry := .newPage flags }

def preparePage (page : Page) (mapping : VmMapping) (access : Access) (supply : Supply) : Except Errno Bool :=
  match mapping.mappedMem, supply.failure with
  | .device, _ => .error .EFAULT
  | _, some (errno, _) => .error errno
  | .anonymous, none => .ok false
  | .vmo _ _, none =>
      if !mapping.isShared && !page.insideVmo then .ok false
      else .ok (!mapping.isShared && access ≠ .write)

def handleSinglePageFault (page : Page) (mapping : VmMapping) (access : Access) (supply : Supply) :
    Checked (Except Errno Page) :=
  match page.query with
  | some flags => do
      if mapping.mappedMem = .device then return .error .EFAULT
      if flags.contains access then return .ok page
      assert (access = .write)
      if flags.w then return .ok page
      match supply.onlyReference || mapping.isShared, supply.failure with
      | false, some (errno, _) => return .error errno
      | _, _ => return .ok (page.mapped { flags with w := true, accessed := true, dirty := true })
  | none =>
      match page.preparePage mapping access supply with
      | .error errno => .ok (.error errno)
      | .ok isReadonly => .ok (.ok (page.mapped ⟨mapping.perms.read, mapping.perms.write && !isReadonly,
          mapping.perms.exec, true, access = .write⟩))

/-- Pages that are mapped already are passed over. An error of a page around does not count once the
faulting page is mapped. -/
def handlePageFaultsAround (page : Page) (mapping : VmMapping) (supply : Supply) : Checked (Except Errno Page) :=
  if !page.insideVmo then page.handleSinglePageFault mapping .read supply
  else match page.query, supply.failure with
    | some _, _ => .ok (.ok page)
    | none, some (errno, false) => .ok (.error errno)
    | none, _ => .ok (.ok (page.mapped ⟨mapping.perms.read, false, mapping.perms.exec, true, false⟩))

def handlePageFault (page : Page) (access : Access) (supply : Supply) : Checked (Except Errno Page) :=
  match page.mapping with
  | none => .ok (.error .EACCES)
  | some mapping =>
      if !mapping.checkPermsForPageFault access then .ok (.error .EACCES)
      else if access = .read ∧ mapping.isVmo ∧ mapping.handlePageFaultsAround then
        page.handlePageFaultsAround mapping supply
      else page.handleSinglePageFault mapping access supply

def queryPageWithRequiredFlags (access : Access) (supply : Nat → Supply) :
    Nat → Nat → Page → Checked (Except Errno Page)
  | 0, _, _ => .error .hang
  | turns + 1, turn, page =>
      if page.query.any (·.contains access) then
        if page.mapping.any (·.mappedMem = .device) then .ok (.error .EOPNOTSUPP) else .ok (.ok page)
      else do
        match ← page.handlePageFault access (supply turn) with
        | .error errno => .ok (.error errno)
        | .ok next => queryPageWithRequiredFlags access supply turns (turn + 1) next

def protect (page : Page) (mapping : VmMapping) (perms : VmPerms) : Page where
  mapping := some { mapping with perms }
  entry := if page.entry.isPresent then .newPage ⟨perms.read,
    perms.write && !(mapping.isCow && !mapping.perms.write), perms.exec, false, false⟩ else page.entry
  insideVmo := page.insideVmo

variable {page : Page} {mapping : VmMapping} {access : Access} {supply : Nat → Supply} {frames : Supply}

@[simp]
theorem query_mapped (page : Page) (flags : PageFlags) : (page.mapped flags).query = some flags := by
  simp [query, mapped, PageTableEntry.newPage, PageTableEntry.isPresent, PageTableEntry.prop]

def Fetched (page : Page) (mapping : VmMapping) (access : Access) (frames : Supply) : Prop :=
  mapping.mappedMem ≠ .device ∧ (frames.failure = none ∨ (∃ errno, frames.failure = some (errno, true)) ∧
    access = .read ∧ mapping.isVmo = true ∧ mapping.handlePageFaultsAround = true ∧ page.insideVmo = true)

/-- A page that may be read by force, but has no flag `R` or would be mapped without it. -/
def Stuck (page : Page) (access : Access) (frames : Supply) : Prop :=
  access = .read ∧ ∃ mapping, page.mapping = some mapping ∧ mapping.checkPermsForPageFault .read = true ∧
    mapping.mappedMem ≠ .device ∧
    match page.query with
    | some flags => flags.r = false
    | none => mapping.perms.read = false ∧ page.Fetched mapping .read frames

theorem absent_single (absent : page.query = none) (fetched : mapping.mappedMem ≠ .device ∧ frames.failure = none) :
    ∃ flags, page.handleSinglePageFault mapping access frames = .ok (.ok (page.mapped flags)) ∧
      flags.r = mapping.perms.read ∧ (access = .write → flags.w = mapping.perms.write) := by
  obtain ⟨ram, frame⟩ := fetched
  obtain ⟨readonly, prepared, writes⟩ : ∃ readonly, page.preparePage mapping access frames = .ok readonly ∧
      (access = .write → readonly = false) := by
    unfold preparePage
    rw [frame]
    cases memory : mapping.mappedMem with
    | device => exact absurd memory ram
    | anonymous => exact ⟨false, rfl, fun _ => rfl⟩
    | vmo vmo offset =>
      dsimp only
      split
      · exact ⟨false, rfl, fun _ => rfl⟩
      · exact ⟨_, rfl, by rintro rfl; simp⟩
  unfold handleSinglePageFault
  rw [absent]
  dsimp only
  rw [prepared]
  exact ⟨_, rfl, rfl, fun write => by simp [writes write]⟩

theorem absent_fails (absent : page.query = none) (lacking : mapping.mappedMem = .device ∨ frames.failure ≠ none) :
    ∃ errno, page.handleSinglePageFault mapping access frames = .ok (.error errno) := by
  unfold handleSinglePageFault preparePage
  rw [absent]
  cases memory : mapping.mappedMem <;> cases failed : frames.failure <;>
    first | exact ⟨_, rfl⟩ | simp [memory, failed] at lacking

theorem absent_fault (owned : page.mapping = some mapping) (allowed : mapping.checkPermsForPageFault access = true)
    (absent : page.query = none) :
    (page.Fetched mapping access frames ∧
      ∃ flags, page.handlePageFault access frames = .ok (.ok (page.mapped flags)) ∧
      flags.r = mapping.perms.read ∧ (access = .write → flags.w = mapping.perms.write)) ∨
    ¬page.Fetched mapping access frames ∧ ∃ errno, page.handlePageFault access frames = .ok (.error errno) := by
  unfold handlePageFault
  rw [owned]
  dsimp only
  rw [allowed, Bool.not_true, if_neg Bool.false_ne_true]
  by_cases around : (access = .read ∧ mapping.isVmo = true ∧ mapping.handlePageFaultsAround = true) ∧
      page.insideVmo = true
  · obtain ⟨around, inside⟩ := around
    have ram : mapping.mappedMem ≠ .device := by
      intro device
      simp [VmMapping.isVmo, device] at around
    rw [if_pos around, handlePageFaultsAround, inside, Bool.not_true, if_neg Bool.false_ne_true, absent]
    rcases failed : frames.failure with _ | ⟨errno, _ | _⟩
    · exact .inl ⟨⟨ram, .inl failed⟩, _, rfl, rfl, fun write => absurd around.1 (by simp [write])⟩
    · refine .inr ⟨?_, errno, rfl⟩
      rintro ⟨-, same | ⟨⟨other, same⟩, -⟩⟩ <;> simp [failed] at same
    · exact .inl ⟨⟨ram, .inr ⟨⟨errno, failed⟩, around.1, around.2.1, around.2.2, inside⟩⟩, _, rfl, rfl,
        fun write => absurd around.1 (by simp [write])⟩
  · have single : (if access = .read ∧ mapping.isVmo = true ∧ mapping.handlePageFaultsAround = true then
        page.handlePageFaultsAround mapping frames else page.handleSinglePageFault mapping access frames) =
        page.handleSinglePageFault mapping access frames := by
      split
      next path =>
        have outside : page.insideVmo = false := by simpa [path] using around
        rw [handlePageFaultsAround, outside, path.1]
        rfl
      next => rfl
    rw [single]
    by_cases fetched : mapping.mappedMem ≠ .device ∧ frames.failure = none
    · exact .inl ⟨⟨fetched.1, .inl fetched.2⟩, absent_single absent fetched⟩
    · refine .inr ⟨?_, absent_fails absent (by tauto)⟩
      rintro ⟨ram, frame | ⟨-, path⟩⟩
      · exact fetched ⟨ram, frame⟩
      · exact around ⟨⟨path.1, path.2.1, path.2.2.1⟩, path.2.2.2⟩

theorem present_device {flags : PageFlags} (owned : page.mapping = some mapping)
    (device : mapping.mappedMem = .device)
    (present : page.query = some flags) : ∃ errno, page.handlePageFault access frames = .ok (.error errno) := by
  unfold handlePageFault handleSinglePageFault
  rw [owned, present]
  dsimp only
  split
  · exact ⟨_, rfl⟩
  · rw [if_neg (by simp [VmMapping.isVmo, device])]
    exact ⟨.EFAULT, rfl⟩

theorem present_write (frames : Supply) {flags : PageFlags} (present : page.query = some flags)
    (lacking : flags.w = false) :
    (∃ errno, page.handlePageFault .write frames = .ok (.error errno)) ∨
      ∃ flags, page.handlePageFault .write frames = .ok (.ok (page.mapped flags)) ∧ flags.w = true := by
  unfold handlePageFault handleSinglePageFault
  rw [present]
  cases page.mapping with
  | none => exact .inl ⟨_, rfl⟩
  | some mapping =>
    simp only [reduceCtorEq, false_and, if_false, contains, lacking, Bool.false_eq_true, assert, decide_true,
      if_true, bind_ok]
    split
    · exact .inl ⟨_, rfl⟩
    split
    · exact .inl ⟨_, rfl⟩
    split
    · exact .inl ⟨_, rfl⟩
    · exact .inr ⟨_, rfl, rfl⟩

section

variable {flags : PageFlags} (owned : page.mapping = some mapping)
  (allowed : mapping.checkPermsForPageFault .read = true) (ram : mapping.mappedMem ≠ .device)
  (present : page.query = some flags) (lacking : flags.r = false)
include owned allowed ram present lacking

theorem present_read :
    page.handlePageFault .read frames = .error .assertFailed ∨
      page.handlePageFault .read frames = .ok (.ok page) := by
  have single : page.handleSinglePageFault mapping .read frames = .error .assertFailed := by
    unfold handleSinglePageFault
    rw [present]
    simp [ram, contains, lacking, assert, bind, Except.bind]
  unfold handlePageFault handlePageFaultsAround
  rw [owned, present]
  dsimp only
  rw [allowed, Bool.not_true, if_neg Bool.false_ne_true]
  split
  · split
    · exact .inl single
    · exact .inr rfl
  · exact .inl single

theorem stuck_present (turns turn : Nat) (result : Except Errno Page) :
    queryPageWithRequiredFlags .read supply turns turn page ≠ .ok result := by
  induction turns generalizing turn with
  | zero => nofun
  | succ turns ih =>
    rw [queryPageWithRequiredFlags, present, if_neg (by simp [contains, lacking])]
    rcases present_read owned allowed ram present lacking with panics | same
    · rw [panics]
      nofun
    · rw [same, bind_ok]
      exact ih _

end

def Served (access : Access) (supply : Nat → Supply) (turn : Nat) (page : Page) : Prop :=
  ∃ turns result, queryPageWithRequiredFlags access supply turns turn page = .ok result ∧
    ∀ next, result = .ok next → next.query.any (·.contains access) = true

variable {turn : Nat}

theorem served_now (has : page.query.any (·.contains access) = true) : page.Served access supply turn := by
  cases device : page.mapping.any (·.mappedMem = .device) with
  | true =>
    refine ⟨1, .error .EOPNOTSUPP, by rw [queryPageWithRequiredFlags, if_pos has, if_pos device], ?_⟩
    rintro next ⟨⟩
  | false =>
    refine ⟨1, .ok page, by rw [queryPageWithRequiredFlags, if_pos has, if_neg (by simp [device])], ?_⟩
    rintro next ⟨⟩
    exact has

theorem served_fails {errno : Errno} (lacks : page.query.any (·.contains access) = false)
    (fails : page.handlePageFault access (supply turn) = .ok (.error errno)) : page.Served access supply turn := by
  refine ⟨1, .error errno, ?_, by rintro next ⟨⟩⟩
  rw [queryPageWithRequiredFlags, if_neg (by simp [lacks]), fails, bind_ok]

theorem served_next {next : Page} (lacks : page.query.any (·.contains access) = false)
    (faulted : page.handlePageFault access (supply turn) = .ok (.ok next))
    (later : next.Served access supply (turn + 1)) : page.Served access supply turn := by
  obtain ⟨turns, result, ran, good⟩ := later
  refine ⟨turns + 1, result, ?_, good⟩
  rw [queryPageWithRequiredFlags, if_neg (by simp [lacks]), faulted, bind_ok]
  exact ran

theorem served_present_write {flags : PageFlags} (present : page.query = some flags) :
    page.Served .write supply turn := by
  cases writable : flags.w with
  | true => exact served_now (by simp [present, contains, writable])
  | false =>
    have lacks : page.query.any (·.contains .write) = false := by simp [present, contains, writable]
    rcases present_write (supply turn) present writable with ⟨errno, fails⟩ | ⟨flags, faulted, writable⟩
    · exact served_fails lacks fails
    · exact served_next lacks faulted (served_now (by simp [contains, writable]))

theorem served_of_not_stuck (free : ¬page.Stuck access (supply 0)) : page.Served access supply 0 := by
  cases has : page.query.any (·.contains access) with
  | true => exact served_now has
  | false =>
  cases owned : page.mapping with
  | none => exact served_fails has (by rw [handlePageFault, owned])
  | some mapping =>
  cases allowed : mapping.checkPermsForPageFault access with
  | false => exact served_fails has (by rw [handlePageFault, owned]; dsimp only; rw [allowed]; rfl)
  | true =>
  cases found : page.query with
  | some flags =>
    by_cases device : mapping.mappedMem = .device
    · obtain ⟨errno, fails⟩ := present_device owned device found
      exact served_fails has fails
    cases access with
    | write => exact served_present_write found
    | read =>
      refine absurd ⟨rfl, mapping, owned, allowed, device, ?_⟩ free
      rw [found] at has ⊢
      exact has
  | none =>
    rcases absent_fault owned allowed found with ⟨fetched, flags, faulted, read, write⟩ | ⟨-, errno, fails⟩
    · refine served_next has faulted ?_
      cases access with
      | write => exact served_present_write (query_mapped page flags)
      | read =>
        refine served_now ?_
        rw [query_mapped, Option.any_some, contains, read]
        by_contra unread
        refine free ⟨rfl, mapping, owned, allowed, fetched.1, ?_⟩
        rw [found]
        exact ⟨Bool.eq_false_iff.mpr unread, fetched⟩
    · exact served_fails has fails

theorem stuck_hangs (stuck : page.Stuck access (supply 0)) : ¬page.Served access supply 0 := by
  obtain ⟨rfl, mapping, owned, allowed, ram, state⟩ := stuck
  rintro ⟨turns, result, ran, -⟩
  cases found : page.query with
  | some flags =>
    rw [found] at state
    exact stuck_present owned allowed ram found state turns 0 result ran
  | none =>
    rw [found] at state
    obtain ⟨unread, fetched⟩ := state
    rcases absent_fault owned allowed found with ⟨-, flags, faulted, read, -⟩ | ⟨absurd, -⟩
    · cases turns with
      | zero => cases ran
      | succ turns =>
        rw [queryPageWithRequiredFlags, found, if_neg (by simp), faulted, bind_ok] at ran
        have same : (page.mapped flags).mapping = some mapping := owned
        exact stuck_present same allowed ram (query_mapped page flags) (read.trans unread) turns _ result ran
    · exact absurd fetched

/-- For every page, every request and whatever frames there are. -/
theorem served_iff (page : Page) (access : Access) (supply : Nat → Supply) :
    page.Served access supply 0 ↔ ¬page.Stuck access (supply 0) :=
  ⟨fun served stuck => stuck_hangs stuck served, served_of_not_stuck⟩

def readWrite : VmMapping where
  mapToAddr := vmarLowestAddr
  perms := { read := true, write := true }

/-- Private anonymous memory that is written, protected with `PROT_NONE` and then read by a debugger. -/
theorem read_protected_panics : ∃ touched : Page,
    Page.handlePageFault { mapping := some readWrite } .write {} = .ok (.ok touched) ∧
    ∀ supply turns, queryPageWithRequiredFlags .read supply (turns + 1) 0 (touched.protect readWrite {}) =
      .error .assertFailed :=
  ⟨_, rfl, fun _ _ => rfl⟩

end Page

end Kei.Vmar
