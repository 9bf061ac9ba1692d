import Kei.Mm.UserSpace

/-! Runs of calls on the cursors of one address space. A ledger beside the tables, kept from the calls alone, holds
what was last installed at each page; the question is whether `query` reports it. -/

namespace Kei.Mm

open Library Checked PteTrait VmSpace PageTableEntry

inductive ItemKind
  | ram
  | ioMem
  deriving DecidableEq

structure Report where
  kind : ItemKind
  r : Bool
  w : Bool
  x : Bool
  deriving DecidableEq

/-- What a page was mapped as, and the operations that `protect_next` has applied to it since. -/
structure Installed where
  kind : ItemKind
  flags : PageFlags
  cache : CachePolicy
  ops : List (PageFlags → CachePolicy → PageFlags × CachePolicy)

namespace Installed

variable (installed : Installed)

/-- The property last installed: each operation goes on from what the one before it has made. -/
def last : PageFlags × CachePolicy :=
  installed.ops.foldl (fun prop op => op prop.1 prop.2) (installed.flags, installed.cache)

/-- The permission to write that the entry keeps: each operation goes on from what is read back. -/
def keptW : Bool :=
  installed.ops.foldl (fun w op => (op (userView w).flags (userView w).cache).1.w) installed.flags.w

def protect (op : PageFlags → CachePolicy → PageFlags × CachePolicy) : Installed :=
  { installed with ops := installed.ops ++ [op] }

def report : Report := ⟨installed.kind, installed.last.1.r, installed.last.1.w, installed.last.1.x⟩

/-- The operations grant or deny to write by that permission alone. -/
def OnW : Prop :=
  ∀ op ∈ installed.ops, ∀ flags other cache policy, flags.w = other.w →
    (op flags cache).1.w = (op other policy).1.w

variable {installed}

theorem keptW_protect (op : PageFlags → CachePolicy → PageFlags × CachePolicy) :
    (installed.protect op).keptW = (op (userView installed.keptW).flags (userView installed.keptW).cache).1.w := by
  simp [protect, keptW]

theorem OnW.keptW_eq (onW : installed.OnW) : installed.keptW = installed.last.1.w := by
  rcases installed with ⟨kind, flags, cache, ops⟩
  suffices same : ∀ w, w = flags.w → ops.foldl (fun w op => (op (userView w).flags (userView w).cache).1.w) w =
      (ops.foldl (fun prop op => op prop.1 prop.2) (flags, cache)).1.w from same _ rfl
  induction ops generalizing flags cache with
  | nil => exact fun w same => same
  | cons op ops ih =>
    intro w same
    refine ih _ _ (fun op later => onW op (List.mem_cons_of_mem _ later)) _ ?_
    exact onW op List.mem_cons_self _ flags _ cache same

end Installed

def VmQueriedItem.kind {maxPaddr : Nat} : VmQueriedItem maxPaddr → ItemKind
  | .mappedRam _ _ => .ram
  | .mappedIoMem _ _ => .ioMem

def VmQueriedItem.report {maxPaddr : Nat} (item : VmQueriedItem maxPaddr) : Report :=
  ⟨item.kind, item.prop.flags.r, item.prop.flags.w, item.prop.flags.x⟩

/-- Calls on a cursor. Outside the kernel framework a property is made by `new_user` only. -/
inductive CursorCall (maxPaddr : Nat)
  | query
  | jump (va : Nat)
  | findNext (len : Nat)
  | map (frame : UFrame maxPaddr) (flags : PageFlags) (cache : CachePolicy)
  | mapIomem (ioMem : IoMem) (flags : PageFlags) (cache : CachePolicy) (len offset : Nat)
  | protectNext (len : Nat) (op : PageFlags → CachePolicy → PageFlags × CachePolicy)

inductive Call (maxPaddr : Nat)
  | cursorMut (start stop : Nat)
  | on (who : Nat) (call : CursorCall maxPaddr)

structure Session where
  space : VmSpace
  cursors : List Cursor
  installed : Nat → Option Installed

namespace Session

variable {maxPaddr : Nat}

def onCursor (session : Session) (cursor : Cursor) :
    CursorCall maxPaddr → Checked (VmSpace × Cursor × (Nat → Option Installed))
  | .query => do
    let (_, moved) ← session.space.query maxPaddr cursor
    return (session.space, moved, session.installed)
  | .jump va => do
    let (_, moved) ← cursor.jump va
    return (session.space, moved, session.installed)
  | .findNext len => do
    let (_, space, moved) ← session.space.findNext maxPaddr cursor len
    return (space, moved, session.installed)
  | .map frame flags cache => do
    let (space, moved) ← session.space.map cursor frame (.newUser flags cache)
    return (space, moved, Function.update session.installed (cursor.va / 4096) (some ⟨.ram, flags, cache, []⟩))
  | .mapIomem ioMem flags cache len offset => do
    let (space, moved) ← session.space.mapIomem maxPaddr cursor ioMem (.newUser flags cache) len offset
    return (space, moved, fun page =>
      if cursor.va / 4096 ≤ page ∧ page < moved.va / 4096 then some ⟨.ioMem, flags, cache, []⟩
      else session.installed page)
  | .protectNext len op => do
    let (result, space, moved) ← session.space.protectNext maxPaddr cursor len op
    match result with
    | none => return (space, moved, session.installed)
    | some (start, _) => return (space, moved,
        Function.update session.installed (start / 4096) ((session.installed (start / 4096)).map (·.protect op)))

def step (session : Session) : Call maxPaddr → Checked Session
  | .cursorMut start stop => do
    let (result, space) ← session.space.cursorMut maxPaddr start stop
    match result with
    | .error _ => return { session with space := space }
    | .ok cursor => return { session with space := space, cursors := session.cursors ++ [cursor] }
  | .on who call =>
    match session.cursors[who]? with
    | none => .ok session
    | some cursor => do
      let (space, moved, installed) ← session.onCursor cursor call
      return ⟨space, session.cursors.set who moved, installed⟩

def run (machine : Machine) (calls : List (Call maxPaddr)) : Checked Session := do
  let space ← new machine
  runAll step ⟨space, [], fun _ => none⟩ calls

end Session

variable {maxPaddr : Nat}

def Shows (maxPaddr : Nat) : Option Installed → Option (Nat × Nat × PageProperty) → Prop
  | none, found => found = none
  | some installed, found => ∃ frame, found = some (1, frame, userView installed.keptW) ∧
      (installed.kind = .ram → frame < maxPaddr)

theorem shows_encoded {installed : Installed} {flags : PageFlags} (paddr : Nat) (cache : CachePolicy) (avail1 : Bool)
    (kept : installed.keptW = flags.w) (below : installed.kind = .ram → paddr < maxPaddr) :
    Shows maxPaddr (some installed) (some (1, paddr &&& physAddrMask,
      readBack ⟨flags, cache, ⟨true, false, avail1⟩⟩)) := by
  refine ⟨paddr &&& physAddrMask, by rw [readBack_user, kept], ?_⟩
  intro ram
  exact Nat.lt_of_le_of_lt Nat.and_le_left (below ram)

structure Reflects (maxPaddr root : Nat) (place : Nat → Option (Nat × Nat)) (memory : Memory PageTableEntry)
    (installed : Nat → Option Installed) : Prop where
  sound : memory.Sound (userPtConfig maxPaddr) userPage PageTableEntry.Addressable root place
  pages : ∀ page, userPage page →
    Shows maxPaddr (installed page) (memory.lookup (userPtConfig maxPaddr) root page)

variable {root : Nat} {place : Nat → Option (Nat × Nat)} {memory : Memory PageTableEntry}
  {installed : Nat → Option Installed} {cursor : Cursor}

namespace Reflects

theorem congr {other : Nat → Option Installed} (reflects : Reflects maxPaddr root place memory installed)
    (same : ∀ page, other page = installed page) : Reflects maxPaddr root place memory other := by
  obtain rfl : other = installed := funext same
  exact reflects

variable {wider : Nat → Option (Nat × Nat)} {changed : Memory PageTableEntry}

section

variable (reflects : Reflects maxPaddr root place memory installed)
include reflects

theorem extend
    (extension : Memory.Sound.Extends (userPtConfig maxPaddr) userPage PageTableEntry.Addressable root
      place memory wider changed) :
    Reflects maxPaddr root wider changed installed where
  sound := extension.sound
  pages := by
    intro page within
    rw [extension.same within]
    exact reflects.pages page within

theorem put {target : Nat} {found : Option (Nat × Nat × PageProperty)} {entry : Option Installed}
    (sound : changed.Sound (userPtConfig maxPaddr) userPage PageTableEntry.Addressable root wider)
    (lookups : ∀ page, userPage page → changed.lookup (userPtConfig maxPaddr) root page = if page =
      target then found else memory.lookup (userPtConfig maxPaddr) root page)
    (shows : Shows maxPaddr entry found) :
    Reflects maxPaddr root wider changed (Function.update installed target entry) where
  sound := sound
  pages := by
    intro page within
    rw [lookups page within]
    by_cases same : page = target
    · subst same
      rw [if_pos rfl, Function.update_self]
      exact shows
    · rw [if_neg same, Function.update_of_ne same]
      exact reflects.pages page within

theorem map (sound : cursor.Sound userPage place) (frame : UFrame maxPaddr) (flags : PageFlags)
    (cache : CachePolicy) :
    Yields (cursor.map (userPtConfig maxPaddr) memory (.newTracked frame (.newUser flags cache)))
      fun (changed, moved) => ∃ wider, Radix.Grows place wider ∧ moved.Sound userPage wider ∧
        Reflects maxPaddr root wider changed
          (Function.update installed (cursor.va / 4096) (some ⟨.ram, flags, cache, []⟩)) := by
  refine (Cursor.map_sound pteLaws rfl userPage.bounded (fun _ _ => itemFromRaw_ends _ _ _) rfl reflects.sound
    sound).mono ?_
  rintro ⟨changed, moved⟩ ⟨wider, grows, soundChanged, soundMoved, _, _, lookups⟩
  have shows := @shows_encoded _ ⟨.ram, flags, cache, []⟩ _ frame.paddr cache false rfl fun _ => frame.below
  exact ⟨wider, grows, soundMoved, reflects.put soundChanged lookups shows⟩

theorem mapIoPages (sound : cursor.Sound userPage place) (pages : List Nat) (flags : PageFlags)
    (cache : CachePolicy) :
    Yields (mapIoPages maxPaddr (.newUser flags cache) pages memory cursor) fun (changed, moved) =>
      ∃ wider, Radix.Grows place wider ∧ moved.Sound userPage wider ∧ cursor.va ≤ moved.va ∧
        Reflects maxPaddr root wider changed fun page =>
          if cursor.va / 4096 ≤ page ∧ page < moved.va / 4096 then some ⟨.ioMem, flags, cache, []⟩
          else installed page := by
  induction pages generalizing memory cursor place installed with
  | nil =>
    refine ⟨place, fun _ _ here => here, sound, Nat.le_refl _, reflects.congr ?_⟩
    intro page
    rw [if_neg (by omega)]
  | cons paddr rest ih =>
    refine (Cursor.map_sound pteLaws rfl userPage.bounded (fun _ _ => itemFromRaw_ends _ _ _) rfl reflects.sound
      sound).bind ?_
    rintro ⟨mapped, next⟩ ⟨wide, grows, soundMapped, soundNext, there, _, lookups⟩
    have shows := @shows_encoded maxPaddr ⟨.ioMem, flags, cache, []⟩ _ paddr cache true rfl (by simp)
    refine (ih (reflects.put soundMapped lookups shows) soundNext).mono ?_
    rintro ⟨changed, moved⟩ ⟨wider, growsMore, soundMoved, order, rest⟩
    refine ⟨wider, grows.trans growsMore, soundMoved, by omega, rest.congr ?_⟩
    intro page
    rw [there, Function.update_apply]
    split_ifs <;> first | rfl | omega

end

theorem ioPages_yields (ioMem : IoMem) (len offset : Nat) :
    Yields (ioPages ioMem len offset) fun _ => True := by
  refine (add_yields _ _ _).bind fun first _ => ?_
  split
  · exact (add_yields _ _ _).bind fun _ _ => trivial
  · refine (add_yields _ _ _).bind fun _ _ => ?_
    exact (add_yields _ _ _).bind fun _ _ => trivial

variable (reflects : Reflects maxPaddr root place memory installed) (sound : cursor.Sound userPage place)
include reflects sound

theorem mapIomem (ioMem : IoMem) (flags : PageFlags) (cache : CachePolicy) (len offset : Nat) (iomems : List IoMem) :
    Yields (mapIomem maxPaddr ⟨memory, root, iomems⟩ cursor ioMem (.newUser flags cache) len offset)
      fun (space, moved) => ∃ wider, Radix.Grows place wider ∧ moved.Sound userPage wider ∧
        Reflects maxPaddr space.root wider space.memory fun page =>
          if cursor.va / 4096 ≤ page ∧ page < moved.va / 4096 then some ⟨.ioMem, flags, cache, []⟩
          else installed page := by
  refine (assert_yields _).bind fun _ _ => ?_
  refine (assert_yields _).bind fun _ _ => ?_
  split
  · refine ⟨place, fun _ _ here => here, sound, reflects.congr ?_⟩
    intro page
    rw [if_neg (by omega)]
  · refine (ioPages_yields ioMem len offset).bind fun pages _ => ?_
    refine (reflects.mapIoPages sound pages flags cache).bind ?_
    rintro ⟨changed, moved⟩ ⟨wider, grows, soundMoved, _, after⟩
    exact ⟨wider, grows, soundMoved, after⟩

theorem protectNext (len : Nat) (op : PageFlags → CachePolicy → PageFlags × CachePolicy) :
    Yields (cursor.protectNext (userPtConfig maxPaddr) memory len (onProperty op))
      fun (result, changed, moved) => moved.Sound userPage place ∧ match result with
        | none => Reflects maxPaddr root place changed installed
        | some (start, _) => Reflects maxPaddr root place changed
            (Function.update installed (start / 4096) ((installed (start / 4096)).map (·.protect op))) := by
  refine (Cursor.protectNext_sound pteLaws rfl userPage.bounded (fun _ _ => itemFromRaw_ends _ _ _) len
    (onProperty op) reflects.sound sound).mono ?_
  rintro ⟨result, changed, moved⟩ ⟨soundChanged, soundMoved, effect⟩
  refine ⟨soundMoved, ?_⟩
  cases result with
  | none =>
    obtain rfl : changed = memory := effect
    exact reflects
  | some range =>
    obtain ⟨start, stop⟩ := range
    obtain ⟨_, within, frame, prop, shown, found, stored, lookups⟩ := effect
    have before := reflects.pages _ within
    rw [found] at before
    cases ledger : installed (start / 4096) with
    | none =>
      rw [ledger] at before
      cases before
    | some last =>
      rw [ledger] at before
      obtain ⟨_, same, below⟩ := before
      cases same
      refine reflects.put soundChanged lookups ?_
      rw [ledger]
      rcases stored with ⟨unchanged, rfl⟩ | rfl
      · refine ⟨frame, ?_, below⟩
        have flags : (op (userView last.keptW).flags (userView last.keptW).cache).1 =
            (userView last.keptW).flags := congrArg PageProperty.flags unchanged
        rw [Installed.keptW_protect, flags]
        rfl
      · exact shows_encoded frame _ false (Installed.keptW_protect op) below

theorem query_empty (inside : cursor.va < cursor.barrierEnd) (empty : installed (cursor.va / 4096) = none)
    (iomems : List IoMem) :
    ∃ range moved, moved.Sound userPage place ∧
      query maxPaddr ⟨memory, root, iomems⟩ cursor = .ok (.ok (range, none), moved) := by
  have shows := reflects.pages _ (sound.within inside)
  rw [empty] at shows
  obtain ⟨range, moved, soundMoved, ran⟩ :=
    Cursor.Sound.queryLoop_sound userPage.bounded reflects.sound sound inside
    (Nat.lt_succ_self _)
  refine ⟨range, moved, soundMoved, ?_⟩
  rw [Memory.shown, show memory.lookup _ _ _ = none from shows, bind_ok] at ran
  simp only [query, Cursor.query, ge_iff_le, Nat.not_le.mpr inside, if_false, ran, bind_ok, pure_eq_ok]

theorem query_installed (inside : cursor.va < cursor.barrierEnd) {last : Installed}
    (ledger : installed (cursor.va / 4096) = some last) (iomems : List IoMem) :
    ∃ range moved paddr, moved.Sound userPage place ∧ (last.kind = .ram → paddr < maxPaddr) ∧
      query maxPaddr ⟨memory, root, iomems⟩ cursor = UFrame.fromRaw maxPaddr paddr >>= fun frame =>
        .ok (.ok (range, some (.mappedRam frame (userView last.keptW))), moved) := by
  have shows := reflects.pages _ (sound.within inside)
  rw [ledger] at shows
  obtain ⟨paddr, found, below⟩ := shows
  obtain ⟨range, moved, soundMoved, ran⟩ :=
    Cursor.Sound.queryLoop_sound userPage.bounded reflects.sound sound inside
    (Nat.lt_succ_self _)
  refine ⟨range, moved, paddr, soundMoved, below, ?_⟩
  rw [Memory.shown, found] at ran
  simp only [query, Cursor.query, ge_iff_le, Nat.not_le.mpr inside, if_false, ran, bind_assoc, pure_eq_ok,
    bind_ok]
  show (itemFromRaw paddr 1 (userView last.keptW) >>= _) = _
  simp only [itemFromRaw, userView, assert, decide_true, if_true, bind_ok, Bool.false_eq_true, if_false,
    bind_assoc, pure_eq_ok, VmItem.newTracked, VmQueriedItem.fromItem]

theorem query_yields (iomems : List IoMem) :
    Yields (query maxPaddr ⟨memory, root, iomems⟩ cursor) fun (_, moved) => moved.Sound userPage place := by
  by_cases inside : cursor.va < cursor.barrierEnd
  · cases ledger : installed (cursor.va / 4096) with
    | none =>
      obtain ⟨range, moved, soundMoved, ran⟩ := reflects.query_empty sound inside ledger iomems
      rw [ran]
      exact soundMoved
    | some last =>
      obtain ⟨range, moved, paddr, soundMoved, _, ran⟩ := reflects.query_installed sound inside ledger iomems
      rw [ran]
      exact (yields_of_ends (UFrame.fromRaw_ends maxPaddr paddr)).bind fun _ _ => soundMoved
  · rw [query, Cursor.query, if_pos (Nat.not_lt.mp inside)]
    exact sound

end Reflects

namespace Session

variable {session : Session}

def Agrees (maxPaddr : Nat) (session : Session) : Prop :=
  ∃ place, Reflects maxPaddr session.space.root place session.space.memory session.installed ∧
    ∀ cursor ∈ session.cursors, cursor.Sound userPage place

theorem onCursor_reflects
    (reflects : Reflects maxPaddr session.space.root place session.space.memory session.installed)
    (sound : cursor.Sound userPage place) (call : CursorCall maxPaddr) :
    Yields (session.onCursor cursor call) fun (space, moved, installed) =>
      ∃ wider, Radix.Grows place wider ∧ moved.Sound userPage wider ∧
        Reflects maxPaddr space.root wider space.memory installed := by
  have same : Radix.Grows place place := fun _ _ here => here
  cases call with
  | query =>
    refine (reflects.query_yields sound session.space.iomems).bind ?_
    rintro ⟨_, moved⟩ soundMoved
    exact ⟨place, same, soundMoved, reflects⟩
  | jump va =>
    refine (sound.jump_sound va).bind ?_
    rintro ⟨_, moved⟩ soundMoved
    exact ⟨place, same, soundMoved, reflects⟩
  | findNext len =>
    rw [onCursor, findNext, bind_assoc]
    refine (Cursor.findNextImpl_sound rfl userPage.bounded (fun _ _ => itemFromRaw_ends _ _ _) len false
      reflects.sound sound).bind ?_
    rintro ⟨_, _, moved⟩ ⟨rfl, soundMoved, _⟩
    exact ⟨place, same, soundMoved, reflects⟩
  | map frame flags cache =>
    rw [onCursor, map, bind_assoc]
    refine (reflects.map sound frame flags cache).bind ?_
    rintro ⟨changed, moved⟩ ⟨wider, grows, soundMoved, after⟩
    exact ⟨wider, grows, soundMoved, after⟩
  | mapIomem ioMem flags cache len offset =>
    refine (reflects.mapIomem sound ioMem flags cache len offset session.space.iomems).bind ?_
    rintro ⟨space, moved⟩ ⟨wider, grows, soundMoved, after⟩
    exact ⟨wider, grows, soundMoved, after⟩
  | protectNext len op =>
    rw [onCursor, protectNext, bind_assoc]
    refine (reflects.protectNext sound len op).bind ?_
    rintro ⟨result, changed, moved⟩ ⟨soundMoved, effect⟩
    cases result with
    | none => exact ⟨place, same, soundMoved, effect⟩
    | some range => exact ⟨place, same, soundMoved, effect⟩

theorem step_agrees (agrees : session.Agrees maxPaddr) (call : Call maxPaddr) :
    Yields (session.step call) (Agrees maxPaddr) := by
  obtain ⟨place, reflects, cursors⟩ := agrees
  cases call with
  | cursorMut start stop =>
    rw [step, cursorMut, bind_assoc]
    refine (Cursor.new_sound pteLaws (show 4 ≤ maxNrLevels by decide) start stop (isValidRange_yields start stop)
      reflects.sound).bind ?_
    rintro ⟨result, changed⟩ ⟨wider, extension, soundNew⟩
    have after := reflects.extend extension
    have kept : ∀ cursor ∈ session.cursors, cursor.Sound userPage wider := fun cursor member =>
      (cursors cursor member).mono extension.grows
    cases result with
    | error error => exact ⟨wider, after, kept⟩
    | ok cursor =>
      refine ⟨wider, after, ?_⟩
      intro other member
      rcases List.mem_append.mp member with old | new
      · exact kept other old
      · obtain rfl := List.mem_singleton.mp new
        exact soundNew other rfl
  | on who call =>
    rw [step]
    cases here : session.cursors[who]? with
    | none => exact ⟨place, reflects, cursors⟩
    | some cursor =>
      have sound := cursors cursor (List.mem_of_getElem? here)
      refine (onCursor_reflects reflects sound call).bind ?_
      rintro ⟨space, moved, installed⟩ ⟨wider, grows, soundMoved, after⟩
      refine ⟨wider, after, ?_⟩
      intro other member
      rcases List.mem_or_eq_of_mem_set member with old | rfl
      · exact (cursors other old).mono grows
      · exact soundMoved

theorem run_agrees (machine : Machine) (calls : List (Call maxPaddr)) :
    Yields (run machine calls) (Agrees maxPaddr) := by
  rw [run, new, bind_assoc]
  refine (createUserPageTable_yields machine.memory machine.kernelRoot).bind ?_
  rintro ⟨root, memory⟩ ⟨free, supply, rooted⟩
  have sound := rooted.sound maxPaddr supply machine.fresh machine.distinct
  refine runAll_yields (Agrees maxPaddr) (fun session call _ agrees => step_agrees agrees call) ?_
  refine ⟨_, ⟨sound, ?_⟩, by simp⟩
  intro page within
  exact rooted.lookup_eq_none maxPaddr within

def Reports (maxPaddr : Nat) (session : Session) (cursor : Cursor) (installed : Installed) : Prop :=
  ∃ range item moved, session.space.query maxPaddr cursor = .ok (.ok (range, some item), moved) ∧
    item.report = installed.report

theorem reports_iff
    (reflects : Reflects maxPaddr session.space.root place session.space.memory session.installed)
    (sound : cursor.Sound userPage place) (inside : cursor.va < cursor.barrierEnd) {installed : Installed}
    (ledger : session.installed (cursor.va / 4096) = some installed) :
    session.Reports maxPaddr cursor installed ↔ installed.kind = .ram ∧ installed.last.1.r = true ∧
      installed.keptW = installed.last.1.w ∧ installed.last.1.x = true := by
  obtain ⟨range, moved, paddr, _, below, ran⟩ :=
    reflects.query_installed sound inside ledger session.space.iomems
  have asked : session.space.query maxPaddr cursor = _ := ran
  constructor
  · rintro ⟨shownRange, item, there, answered, same⟩
    rw [asked] at answered
    obtain ⟨frame, _, answered⟩ := bind_eq_ok.mp answered
    cases answered
    rw [VmQueriedItem.report, Installed.report, Report.mk.injEq] at same
    exact ⟨same.1.symm, same.2.1.symm, same.2.2.1, same.2.2.2.symm⟩
  · rintro ⟨ram, readable, writable, executable⟩
    rw [Reports, asked, UFrame.fromRaw, dif_pos (below ram)]
    refine ⟨range, _, moved, rfl, ?_⟩
    rw [Installed.report, ram, readable, ← writable, executable]
    rfl

/-- Which entries are read back as they were written, and what follows for the users of an address space: of every
page that is installed, `query` reports the kind and the permissions only if it is a frame that may be read and
executed, and no operation of `protect_next` was misled about the permission to write by what it was given. -/
theorem query_installed_iff (level : Nat) (repr : PteScalar)
    (addressable : ∀ paddr, scalarPaddr? repr = some paddr → PageTableEntry.Addressable paddr)
    (maxPaddr : Nat) (machine : Machine) (calls : List (Call maxPaddr)) :
    (toRepr (fromRepr repr level : PageTableEntry) level = repr ↔ PageTableEntry.Faithful level repr) ∧
    run machine calls ≠ .error .hang ∧
    ∀ session, run machine calls = .ok session →
      ∀ cursor ∈ session.cursors, cursor.va < cursor.barrierEnd →
        match session.installed (cursor.va / 4096) with
        | none => ∃ range moved, session.space.query maxPaddr cursor = .ok (.ok (range, none), moved)
        | some installed =>
            (session.Reports maxPaddr cursor installed ↔ installed.kind = .ram ∧ installed.last.1.r = true ∧
              installed.keptW = installed.last.1.w ∧ installed.last.1.x = true) ∧
            (installed.OnW → installed.keptW = installed.last.1.w) := by
  have agrees := run_agrees machine calls
  refine ⟨fromRepr_toRepr_iff level repr addressable, agrees.ends, ?_⟩
  intro session ran cursor member inside
  obtain ⟨place, reflects, cursors⟩ := agrees.of_ok ran
  have sound := cursors cursor member
  cases ledger : session.installed (cursor.va / 4096) with
  | none =>
    obtain ⟨range, moved, _, answered⟩ := reflects.query_empty sound inside ledger session.space.iomems
    exact ⟨range, moved, answered⟩
  | some installed => exact ⟨reports_iff reflects sound inside ledger, Installed.OnW.keptW_eq⟩

def smallMachine : Machine where
  memory := {
    nodes := fun paddr =>
      if paddr = 0x1000 then some ⟨4, 256, false, fun _ => newPt 0x2000 PageTableFlags.empty⟩
      else if paddr = 0x2000 then some ⟨3, 0, false, fun _ => newZeroed⟩
      else none
    free := (List.range' 3 8).map (· * 4096) }
  kernelRoot := 0x1000
  fresh := by
    intro paddr member
    obtain ⟨number, inside, rfl⟩ := List.mem_map.mp member
    obtain ⟨position, bound, rfl⟩ := List.mem_range'.mp inside
    refine ⟨?_, by omega, by omega⟩
    simp only
    rw [if_neg (by omega), if_neg (by omega)]
  distinct := by decide

def observed (maxPaddr : Nat) (session : Session) : Checked (List (Option Report × Option Report)) :=
  session.cursors.mapM fun cursor => do
    let (answer, _) ← session.space.query maxPaddr cursor
    let reported := match answer with
      | .ok (_, some item) => some item.report
      | _ => none
    return ((session.installed (cursor.va / 4096)).map Installed.report, reported)

def dropW (flags : PageFlags) (cache : CachePolicy) : PageFlags × CachePolicy := ({ flags with w := false }, cache)

def guardDeviceAndData : List (Call 0x80000000) := [.cursorMut 0x400000 0x401000,
  .on 0 (.map ⟨0x80, by decide⟩ PageFlags.empty .writeback),
  .on 0 (.jump 0x400000),
  .cursorMut 0x600000 0x601000,
  .on 1 (.mapIomem ⟨0x9000000, 4096⟩ ⟨true, true, false, false, false, false⟩ .uncacheable 4096 0),
  .on 1 (.jump 0x600000),
  .cursorMut 0x601000 0x602000,
  .on 2 (.map ⟨0x81, by decide⟩ ⟨true, true, false, false, false, false⟩ .writeback),
  .on 2 (.jump 0x601000),
  .on 2 (.protectNext 4096 dropW),
  .on 2 (.jump 0x601000)]

/-- User pages without access or not executable, kernel pages that can be written and tagged pages of devices are
read back as something else. The page without access is reported as readable and executable, the device as an
executable frame, and the data page that was made read-only as executable. -/
theorem query_installed_misread : (∀ prop ∈ ([⟨PageFlags.empty, .writeback, ⟨true, false, false⟩⟩,
        ⟨⟨true, true, false, true, false, false⟩, .writeback, ⟨true, false, false⟩⟩,
        ⟨⟨true, true, false, true, false, false⟩, .writeback, ⟨false, true, false⟩⟩,
        ⟨⟨true, true, true, true, false, false⟩, .writeback, ⟨true, false, true⟩⟩] : List PageProperty),
      toRepr (fromRepr (.mapped 0x5000 prop) 1 : PageTableEntry) 1 ≠ .mapped 0x5000 prop) ∧
    (run smallMachine guardDeviceAndData >>= observed 0x80000000).toOption =
      some [(some ⟨.ram, false, false, false⟩, some ⟨.ram, true, false, true⟩),
        (some ⟨.ioMem, true, true, false⟩, some ⟨.ram, true, true, true⟩),
        (some ⟨.ram, true, false, false⟩, some ⟨.ram, true, false, true⟩)] := by
  constructor
  · decide +kernel
  · decide +kernel

def textPage : List (Call 0x80000000) := [.cursorMut 0x400000 0x401000,
  .on 0 (.map ⟨0x80, by decide⟩ ⟨true, true, true, false, false, false⟩ .writeback),
  .on 0 (.jump 0x400000),
  .on 0 (.protectNext 4096 dropW),
  .on 0 (.jump 0x400000)]

/-- A page that is filled and then made read-only is reported as it was installed. -/
theorem query_installed_iff_textPage : let entry : PteScalar := .mapped 0x80000 (userView false)
    toRepr (fromRepr entry 1 : PageTableEntry) 1 = entry ∧
    ∃ session cursor installed, run smallMachine textPage = .ok session ∧ session.cursors = [cursor] ∧
      session.installed (cursor.va / 4096) = some installed ∧ installed.report = ⟨.ram, true, false, true⟩ ∧
      session.Reports 0x80000000 cursor installed := by
  intro entry
  have addressable : ∀ paddr, scalarPaddr? entry = some paddr → PageTableEntry.Addressable paddr := by
    rintro _ ⟨⟩
    exact ⟨by decide, by decide⟩
  obtain ⟨contract, _, reports⟩ := query_installed_iff 1 entry addressable 0x80000000 smallMachine textPage
  refine ⟨contract.mpr (by simp [entry, PageTableEntry.Faithful, userView]), ?_⟩
  have evaluated : (run smallMachine textPage).toOption.map (fun session => session.cursors.map fun cursor =>
      (cursor.va, cursor.barrierEnd, (session.installed (cursor.va / 4096)).map fun installed =>
        (installed.report, installed.keptW))) =
          some [(0x400000, 0x401000, some (⟨.ram, true, false, true⟩, false))] := by
    decide +kernel
  cases ran : run smallMachine textPage with
  | error panic =>
    rw [ran] at evaluated
    cases evaluated
  | ok session =>
    rw [ran] at evaluated
    obtain ⟨cursor, only, seen⟩ := List.map_eq_singleton_iff.mp (Option.some.inj evaluated)
    rw [Prod.mk.injEq, Prod.mk.injEq] at seen
    obtain ⟨installed, ledger, same⟩ := Option.map_eq_some_iff.mp seen.2.2
    obtain ⟨report, kept⟩ := Prod.mk.inj same
    refine ⟨session, cursor, installed, rfl, only, ledger, report, ?_⟩
    have reported := reports session ran cursor (by simp [only]) (by omega)
    rw [ledger] at reported
    rw [Installed.report, Report.mk.injEq] at report
    exact reported.1.mpr ⟨report.1, report.2.1, kept.trans report.2.2.1.symm, report.2.2.2⟩

end Session

end Kei.Mm
