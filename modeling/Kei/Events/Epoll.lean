import Kei.Library.Checked
import Mathlib.Data.Finset.Card

/-! How an event spreads over the epoll files that watch a file, that watch those, and so on. Every level keeps the
lock of its observers and the lock of its ready list while the next one runs. -/

namespace Kei.Epoll

open Library Checked Relation

inductive FileId where
  | ordinary (id : Nat)
  | epoll (id : Nat)
deriving DecidableEq

inductive Errno where
  | EEXIST
  | ENOENT

abbrev IoEvents := BitVec 32

def IoEvents.in_ : IoEvents := 0x01#32

def IoEvents.alwaysPoll : IoEvents := 0x18#32

structure Entry where
  serial : Nat
  epoll : Nat
  fd : Nat
  file : FileId
  events : IoEvents
  isEnabled : Bool

def Entry.filter (entry : Entry) (events : IoEvents) : Bool :=
  (entry.events ||| .alwaysPoll) &&& events ≠ 0

inductive Lock where
  | observers (file : FileId)
  | readySet (epoll : Nat)
deriving DecidableEq

/-- The serial numbers of the entries in all ready lists, each with the epoll file of its list. A deleted
entry stays. -/
abbrev Ready := List (Nat × Nat)

def push (notify : List Lock → Ready → FileId → IoEvents → Checked Ready) (held : List Lock) (ready : Ready)
    (entry : Entry) : Checked Ready :=
  if !entry.isEnabled then .ok ready
  else if .readySet entry.epoll ∈ held then .error .hang
  else notify (.readySet entry.epoll :: held) (ready.insert (entry.epoll, entry.serial)) (.epoll entry.epoll) .in_

def notify (entries : List Entry) : Nat → List Lock → Ready → FileId → IoEvents → Checked Ready
  | 0, _, _, _, _ => .error .hang
  | fuel + 1, held, ready, file, events =>
    if !entries.any (·.file = file) then .ok ready
    else if .observers file ∈ held then .error .hang
    else entries.foldlM (fun ready entry =>
      if entry.file = file ∧ entry.filter events then push (notify entries fuel) (.observers file :: held) ready entry
      else .ok ready) ready

structure Graph where
  entries : List Entry
  ready : Ready
  serial : Nat

/-- What `report` says of an ordinary file; an epoll file can be read while its ready list is not empty. -/
def Graph.poll (graph : Graph) (report : Nat → IoEvents) (file : FileId) (mask : IoEvents) : IoEvents :=
  (mask ||| .alwaysPoll) &&& match file with
    | .ordinary id => report id
    | .epoll id => if graph.ready.any (·.1 = id) then .in_ else 0

def Graph.update (graph : Graph) (report : Nat → IoEvents) (fuel : Nat) (entry : Entry) : Checked Graph := do
  let entries := graph.entries.filter (·.serial ≠ entry.serial) ++ [entry]
  let ready ← if graph.poll report entry.file entry.events = 0 then pure graph.ready
    else push (notify entries fuel) [] graph.ready entry
  return ⟨entries, ready, max graph.serial (entry.serial + 1)⟩

inductive EpollCtl where
  | add (events : IoEvents)
  | del
  | mod (events : IoEvents)

def Graph.control (graph : Graph) (report : Nat → IoEvents) (fuel epoll fd : Nat) (file : FileId) (cmd : EpollCtl) :
    Checked (Except Errno Graph) := do
  match cmd, graph.entries.find? fun entry => entry.epoll = epoll ∧ entry.fd = fd ∧ entry.file = file with
  | .add _, some _ => return .error .EEXIST
  | .add events, none => return .ok (← graph.update report fuel ⟨graph.serial, epoll, fd, file, events, true⟩)
  | .del, some entry => return .ok { graph with entries := graph.entries.filter (·.serial ≠ entry.serial) }
  | .mod events, some entry =>
    return .ok (← graph.update report fuel { entry with events := events, isEnabled := true })
  | .del, none | .mod _, none => return .error .ENOENT

/-- An event on the file is passed on to the epoll file. -/
def Wakes (entries : List Entry) (file : FileId) (events : IoEvents) (epoll : Nat) : Prop :=
  ∃ entry ∈ entries, entry.file = file ∧ entry.filter events ∧ entry.isEnabled ∧ entry.epoll = epoll

def Feeds (entries : List Entry) (epoll next : Nat) : Prop := Wakes entries (.epoll epoll) .in_ next

variable {entries : List Entry} {file : FileId} {events : IoEvents} {held : List Lock} {ready after : Ready}
  {fuel epoll next later : Nat}

theorem foldlM_each {α β : Type} {step : β → α → Checked β} {actions : List α} {start last : β}
    (ran : actions.foldlM step start = .ok last) {action : α} (member : action ∈ actions) :
    ∃ before after, step before action = .ok after := by
  induction actions generalizing start with
  | nil => cases member
  | cons first rest ih =>
    obtain ⟨middle, stepped, ran⟩ := bind_eq_ok.mp ran
    rcases List.mem_cons.mp member with rfl | member
    · exact ⟨start, middle, stepped⟩
    · exact ih ran member

theorem notify_each (ran : notify entries (fuel + 1) held ready file events = .ok after)
    (wakes : Wakes entries file events next) :
    ∃ held ready after, notify entries fuel held ready (.epoll next) .in_ = .ok after := by
  obtain ⟨entry, member, watches, interested, enabled, rfl⟩ := wakes
  rw [notify, if_neg (by simpa using ⟨entry, member, watches⟩)] at ran
  split at ran
  · cases ran
  obtain ⟨before, last, pushed⟩ := foldlM_each ran member
  rw [if_pos ⟨watches, interested⟩, push, if_neg (by simp [enabled])] at pushed
  split at pushed
  · cases pushed
  · exact ⟨_, _, _, pushed⟩

theorem notify_endless (path : ReflTransGen (Feeds entries) epoll later)
    (cycle : TransGen (Feeds entries) later later) :
    notify entries fuel held ready (.epoll epoll) .in_ ≠ .ok after := by
  intro ran
  induction fuel generalizing epoll held ready after with
  | zero => cases ran
  | succ fuel ih =>
    obtain ⟨next, feeds, path⟩ : ∃ next, Feeds entries epoll next ∧
      ReflTransGen (Feeds entries) next later := by
      rcases path.cases_head with rfl | onward
      · exact TransGen.head'_iff.mp cycle
      · exact onward
    obtain ⟨_, _, _, ran⟩ := notify_each ran feeds
    exact ih path ran

/-- The chain holds no lock of a file that it can still come to. -/
structure Clear (entries : List Entry) (held : List Lock) (file : FileId) (events : IoEvents) : Prop where
  observers : .observers file ∉ held
  ahead : ∀ {next later}, Wakes entries file events next → ReflTransGen (Feeds entries) next later →
    ¬TransGen (Feeds entries) later later ∧ .readySet later ∉ held ∧ .observers (.epoll later) ∉ held ∧
      file ≠ .epoll later

theorem Clear.wake (clear : Clear entries held file events) (wakes : Wakes entries file events next) :
    Clear entries (.readySet next :: .observers file :: held) (.epoll next) .in_ := by
  obtain ⟨acyclic, _, free, apart⟩ := clear.ahead wakes .refl
  refine ⟨by simp [free, apart.symm], fun {following later} feeds path => ?_⟩
  obtain ⟨acyclicLater, unlocked, freeLater, apartLater⟩ := clear.ahead wakes (path.head feeds)
  have forward : next ≠ later := by
    rintro rfl
    exact acyclic (.head' feeds path)
  exact ⟨acyclicLater, by simp [unlocked, forward.symm], by simp [freeLater, apartLater.symm], by simp [forward]⟩

def unlocked (entries : List Entry) (held : List Lock) : Finset Nat :=
  (entries.map Entry.epoll).toFinset.filter (.readySet · ∉ held)

theorem notify_returns (enough : (unlocked entries held).card < fuel) (clear : Clear entries held file events) :
    Returns (notify entries fuel held ready file events) fun _ => True := by
  induction fuel generalizing file events held ready with
  | zero => cases enough
  | succ fuel ih =>
    rw [notify]
    split
    · trivial
    rw [if_neg clear.observers]
    refine meets_foldlM (fun _ => True) (fun ready entry member _ => ?_) trivial
    split
    case isFalse => trivial
    case isTrue interested =>
    rw [push]
    split
    · trivial
    rename_i enabled
    have wakes : Wakes entries file events entry.epoll :=
      ⟨entry, member, interested.1, interested.2, by simpa using enabled, rfl⟩
    have free := (clear.ahead wakes .refl).2.1
    rw [if_neg (by simp [free])]
    refine ih ?_ (clear.wake wakes)
    have fewer : unlocked entries (.readySet entry.epoll :: .observers file :: held) =
        (unlocked entries held).erase entry.epoll := by
      ext
      simp [unlocked]
      tauto
    rw [fewer]
    have counted : entry.epoll ∈ unlocked entries held := by simpa [unlocked, free] using ⟨entry, member, rfl⟩
    exact (Finset.card_erase_lt_of_mem counted).trans_le (Nat.le_of_lt_succ enough)

theorem notify_returns_iff (entries : List Entry) (ready : Ready) :
    (∀ id events, ∃ fuel after, notify entries fuel [] ready (.ordinary id) events = .ok after) ↔
      ¬∃ id events first later, Wakes entries (.ordinary id) events first ∧
        ReflTransGen (Feeds entries) first later ∧ TransGen (Feeds entries) later later := by
  constructor
  · rintro returns ⟨id, events, first, later, wakes, path, cycle⟩
    obtain ⟨fuel, after, ran⟩ := returns id events
    cases fuel with
    | zero => cases ran
    | succ fuel =>
      obtain ⟨_, _, _, ran⟩ := notify_each ran wakes
      exact notify_endless path cycle ran
  · intro acyclic id events
    have clear : Clear entries [] (.ordinary id) events :=
      ⟨List.not_mem_nil, fun wakes path =>
        ⟨fun cycle => acyclic ⟨id, events, _, _, wakes, path, cycle⟩, List.not_mem_nil,
          List.not_mem_nil, nofun⟩⟩
    obtain ⟨after, ran, _⟩ := (@notify_returns _ _ _ [] ready _ (Nat.lt_succ_self _) clear).exists_ok
    exact ⟨_, after, ran⟩

/-- An epoll file takes itself and then an ordinary file into its interest list. Both calls succeed, and the next
event on the ordinary file never comes to an end. -/
theorem watchingItself_hangs : ∃ first second,
    Graph.control ⟨[], [], 0⟩ (fun _ => 0) 1 0 3 (.epoll 0) (.add .in_) = .ok (.ok first) ∧
      first.control (fun _ => 0) 1 0 4 (.ordinary 7) (.add .in_) = .ok (.ok second) ∧
      ∀ fuel after, notify second.entries fuel [] second.ready (.ordinary 7) .in_ ≠ .ok after := by
  refine ⟨_, _, rfl, rfl, fun fuel after ran => ?_⟩
  cases fuel with
  | zero => cases ran
  | succ fuel =>
    obtain ⟨_, _, _, ran⟩ := notify_each ran (⟨_, .tail _ (.head _), rfl, by decide, rfl, rfl⟩ : Wakes _ _ _ 0)
    exact notify_endless .refl (.single ⟨_, .head _, rfl, by decide, rfl, rfl⟩) ran

end Kei.Epoll
