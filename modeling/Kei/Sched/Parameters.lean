import Kei.Sched.RealTime

/-! The system calls that set and read the scheduling parameters of a thread
(`syscall/sched_{setscheduler,setattr,setparam,getattr,getparam}.rs`, `sched/sched_class/policy.rs`).
User priorities grow with the importance of a thread, those of the run queue fall. -/

namespace Kei.Sched

open Function

inductive Errno
  | EINVAL
  | EACCES

abbrev Fallible := Except (Errno × String)

inductive LinuxSchedPolicy
  | normal
  | fifo
  | roundRobin
  | batch
  | iso
  | idle
  | deadline
  | ext

def LinuxSchedPolicy.tryFrom (code : Nat) : Fallible LinuxSchedPolicy :=
  match [normal, fifo, roundRobin, batch, iso, idle, deadline, ext][code]? with
  | some policy => .ok policy
  | none => .error (.EINVAL, "Invalid enum value")

abbrev RealTimePriority := { prio : Nat // 1 ≤ prio ∧ prio ≤ 99 }

theorem RealTimePriority.bound (prio : RealTimePriority) : prio.1 < 100 := by
  have := prio.2
  omega

def RealTimePriority.get (prio : RealTimePriority) : Fin 100 := ⟨prio, prio.bound⟩

inductive RealTimePolicy
  | fifo
  | roundRobin (baseSliceFactor : Option Nat)

abbrev Nice := { nice : Int // -20 ≤ nice ∧ nice ≤ 19 }

theorem nice_max : -20 ≤ (19 : Int) ∧ (19 : Int) ≤ 19 := by decide

theorem nice_zero : -20 ≤ (0 : Int) ∧ (0 : Int) ≤ 19 := by decide

def Nice.max : Nice := ⟨19, nice_max⟩

inductive SchedPolicy
  | stop
  | realTime (rtPrio : RealTimePriority) (rtPolicy : RealTimePolicy)
  | fair (nice : Nice)
  | idle

structure LinuxSchedAttr where
  schedPolicy : Nat
  schedNice : Int
  schedPriority : Nat

def rtToStatic (prio : RealTimePriority) : Nat := 100 - prio.1

theorem rtToStatic_lt {prio other : RealTimePriority} (larger : rtToStatic other < rtToStatic prio) :
    prio.get < other.get := by
  simp only [rtToStatic] at larger
  exact Fin.lt_def.2 (by simp only [RealTimePriority.get]; omega)

theorem rtToStatic_half (prio : RealTimePriority) :
    (rtToStatic prio = prio ↔ prio.1 = 50) ∧ (rtToStatic prio = 50 ↔ prio.1 = 50) := by
  simp only [rtToStatic]
  omega

theorem rt_range {prio : Nat} (valid : 1 ≤ prio ∧ prio ≤ 99) : 1 ≤ 100 - prio ∧ 100 - prio ≤ 99 := by omega

def staticToRt (prio : Nat) : Fallible RealTimePriority :=
  if valid : 1 ≤ prio ∧ prio ≤ 99 then .ok ⟨100 - prio, rt_range valid⟩
  else .error (.EINVAL, "invalid priority")

@[simp]
def RealTimePolicy.code : RealTimePolicy → Nat
  | fifo => 1
  | roundRobin _ => 2

/-- The highest nice value stands for `SCHED_IDLE`. -/
@[simp]
def LinuxSchedAttr.tryFrom : SchedPolicy → Fallible LinuxSchedAttr
  | .stop => .ok ⟨1, 0, 99⟩
  | .realTime prio policy => .ok ⟨policy.code, 0, rtToStatic prio⟩
  | .fair nice => .ok (if nice = Nice.max then ⟨5, 0, 0⟩ else ⟨0, nice, 0⟩)
  | .idle => .error (.EACCES, "scheduling attributes for idle tasks are not accessible")

def SchedPolicy.tryFrom (attr : LinuxSchedAttr) : Fallible SchedPolicy := do
  match ← LinuxSchedPolicy.tryFrom attr.schedPolicy with
  | .fifo => return .realTime (← staticToRt attr.schedPriority) .fifo
  | .roundRobin => return .realTime (← staticToRt attr.schedPriority) (.roundRobin none)
  | policy =>
    if attr.schedPriority ≠ 0 then throw (.EINVAL, "invalid scheduling priority")
    match policy with
    | .normal =>
      if valid : -20 ≤ attr.schedNice ∧ attr.schedNice ≤ 19 then return .fair ⟨attr.schedNice, valid⟩
      else throw (.EINVAL, "invalid nice number")
    | .idle => return .fair Nice.max
    | _ => throw (.EINVAL, "invalid scheduling policy")

/-- The policy of a thread and the priority its run queue reads. -/
structure SchedAttr where
  policy : SchedPolicy
  prio : Fin 100

namespace SchedAttr

variable {thread other : SchedAttr}

/-- A user thread starts with the default policy. -/
def new : SchedAttr := ⟨.fair ⟨0, nice_zero⟩, 99⟩

def store (thread : SchedAttr) (policy : SchedPolicy) : SchedAttr where
  policy := policy
  prio := match policy with
    | .realTime prio _ => prio.get
    | _ => thread.prio

def setPolicy (thread : SchedAttr) (policy : SchedPolicy) : SchedAttr :=
  match thread.policy, policy with
  | .realTime _ (.roundRobin slot), .realTime prio (.roundRobin factor) =>
    thread.store (.realTime prio (.roundRobin (slot.or factor)))
  | _, policy => thread.store policy

def schedSetattr (thread : SchedAttr) (attr : LinuxSchedAttr) : Fallible SchedAttr := do
  return thread.setPolicy (← SchedPolicy.tryFrom attr)

def schedSetscheduler (thread : SchedAttr) (policy prio : Nat) : Fallible SchedAttr :=
  thread.schedSetattr ⟨policy, 0, prio⟩

def schedSetparam (thread : SchedAttr) (prio : Int) : Fallible SchedAttr :=
  match thread.policy with
  | .realTime _ policy =>
    if valid : 1 ≤ prio.toNat ∧ prio.toNat ≤ 99 then .ok (thread.store (.realTime ⟨prio.toNat, valid⟩ policy))
    else .error (.EINVAL, "invalid scheduling priority")
  | policy => if prio ≠ 0 then .error (.EINVAL, "invalid scheduling priority") else .ok (thread.store policy)

@[simp]
def schedGetattr (thread : SchedAttr) : Fallible LinuxSchedAttr := LinuxSchedAttr.tryFrom thread.policy

@[simp]
def schedGetparam (thread : SchedAttr) : Nat :=
  match thread.policy with
  | .realTime prio _ => prio
  | _ => 0

end SchedAttr

/-- What the calls of a thread have set last, whether the priority is from `sched_setparam`, and whether the policy
is from `sched_setscheduler`, which takes no nice value. -/
structure Request where
  attr : LinuxSchedAttr
  param : Bool
  scheduler : Bool

@[simp]
def Request.RealTime (request : Request) : Prop := request.attr.schedPolicy = 1 ∨ request.attr.schedPolicy = 2

/-- Requests that survive: the priority halfway, no nice value but with a `SCHED_NORMAL` that is not from
`sched_setscheduler`, and there not the one that stands for `SCHED_IDLE`. -/
def Request.Plain (request : Request) : Prop :=
  (request.RealTime → request.attr.schedPriority = 50) ∧
    if request.attr.schedPolicy = 0 ∧ request.scheduler = false then request.attr.schedNice ≠ 19
    else request.attr.schedNice = 0

namespace SchedAttr

variable {thread other : SchedAttr} {request asked : Request}

inductive Reaches : SchedAttr → Request → Prop
  | new : Reaches new ⟨⟨0, 0, 0⟩, false, false⟩
  | setscheduler {before after request} (policy prio : Nat) : Reaches before request →
    before.schedSetscheduler policy prio = .ok after →
    Reaches after ⟨⟨policy, request.attr.schedNice, prio⟩, false, true⟩
  | setattr {before after request} (attr : LinuxSchedAttr) : Reaches before request →
    before.schedSetattr attr = .ok after → Reaches after ⟨attr, false, false⟩
  | setparam {before after request} (prio : Int) : Reaches before request →
    before.schedSetparam prio = .ok after →
    Reaches after ⟨{ request.attr with schedPriority := prio.toNat }, true, request.scheduler⟩

/-- How a request is stored: `sched_setparam` leaves out the conversion of the priority, and `sched_setscheduler`
resets the nice value. -/
inductive Stores : SchedAttr → Request → Prop
  | realTime (prio policy nice scheduler) :
    Stores ⟨.realTime prio policy, prio.get⟩ ⟨⟨policy.code, nice, rtToStatic prio⟩, false, scheduler⟩
  | setparam (prio policy nice scheduler) :
    Stores ⟨.realTime prio policy, prio.get⟩ ⟨⟨policy.code, nice, prio⟩, true, scheduler⟩
  | normal (nice : Nice) (index param) : Stores ⟨.fair nice, index⟩ ⟨⟨0, nice, 0⟩, param, false⟩
  | reset (nice index param) : Stores ⟨.fair ⟨0, nice_zero⟩, index⟩ ⟨⟨0, nice, 0⟩, param, true⟩
  | idle (nice index param scheduler) : Stores ⟨.fair Nice.max, index⟩ ⟨⟨5, nice, 0⟩, param, scheduler⟩

theorem setPolicy_realTime (thread : SchedAttr) (prio : RealTimePriority) (policy : RealTimePolicy) (nice : Int) :
    Stores (thread.setPolicy (.realTime prio policy)) ⟨⟨policy.code, nice, rtToStatic prio⟩, false, false⟩ := by
  unfold setPolicy
  split
  · next set =>
    cases set
    exact .realTime prio (.roundRobin _) nice false
  · exact .realTime prio policy nice false

theorem stores_realTime {user : Nat} {policy : RealTimePolicy} {stored : SchedPolicy} (nice : Int)
    (converted : (do return .realTime (← staticToRt user) policy) = Except.ok stored) :
    Stores (thread.setPolicy stored) ⟨⟨policy.code, nice, user⟩, false, false⟩ := by
  unfold staticToRt at converted
  split at converted
  · next valid =>
    cases converted
    have back : rtToStatic ⟨100 - user, rt_range valid⟩ = user := Nat.sub_sub_self (by omega)
    have stores := thread.setPolicy_realTime ⟨100 - user, rt_range valid⟩ policy nice
    rwa [back] at stores
  · cases converted

theorem setPolicy_fair (nice : Nice) : thread.setPolicy (.fair nice) = ⟨.fair nice, thread.prio⟩ := by
  unfold setPolicy
  split
  · next set => cases set
  · rfl

theorem stores_setPolicy {attr : LinuxSchedAttr} {policy : SchedPolicy}
    (converted : SchedPolicy.tryFrom attr = .ok policy) :
    Stores (thread.setPolicy policy) ⟨attr, false, false⟩ := by
  rcases attr with ⟨code, nice, prio⟩
  match code, prio with
  | 1, _ | 2, _ => exact stores_realTime nice converted
  | 0, 0 =>
    change (if valid : _ then _ else _) = _ at converted
    split at converted
    · next valid =>
      cases converted
      rw [setPolicy_fair]
      exact .normal ⟨nice, valid⟩ _ false
    · cases converted
  | 5, 0 =>
    cases converted
    rw [setPolicy_fair]
    exact .idle nice _ false false
  | 0, _ + 1 | 5, _ + 1 | 3, 0 | 3, _ + 1 | 4, 0 | 4, _ + 1 | 6, 0 | 6, _ + 1 | 7, 0 | 7, _ + 1 | _ + 8, _ =>
    cases converted

theorem stores_setattr {attr : LinuxSchedAttr} (done : thread.schedSetattr attr = .ok other) :
    Stores other ⟨attr, false, false⟩ := by
  unfold schedSetattr at done
  cases converted : SchedPolicy.tryFrom attr with
  | error =>
    rw [converted] at done
    cases done
  | ok policy =>
    rw [converted] at done
    cases done
    exact stores_setPolicy converted

/-- What is stored with nice 0 is stored for any nice value that the call does not take. -/
theorem Stores.reset_nice (stores : Stores thread request) (converted : request.param = false)
    (zero : request.attr.schedNice = 0) (nice : Int) :
    Stores thread ⟨{ request.attr with schedNice := nice }, false, true⟩ := by
  cases stores with
  | realTime prio policy => exact .realTime prio policy nice true
  | setparam => cases converted
  | normal old index =>
    obtain rfl : old = ⟨0, nice_zero⟩ := Subtype.ext zero
    exact .reset nice index false
  | reset _ index => exact .reset nice index false
  | idle _ index => exact .idle nice index false true

theorem Stores.schedSetparam {prio : Int} (stores : Stores thread request)
    (done : thread.schedSetparam prio = .ok other) :
    Stores other ⟨{ request.attr with schedPriority := prio.toNat }, true, request.scheduler⟩ := by
  cases stores with
  | realTime old policy nice | setparam old policy nice =>
    simp only [SchedAttr.schedSetparam] at done
    split at done
    · next valid =>
      cases done
      exact .setparam ⟨prio.toNat, valid⟩ policy nice _
    · cases done
  | normal | reset | idle =>
    by_cases zero : prio = 0
    · subst zero
      cases done
      constructor
    · simp [SchedAttr.schedSetparam, zero] at done

theorem Reaches.stores (reached : Reaches thread request) : Stores thread request := by
  induction reached with
  | new => exact .normal ⟨0, _⟩ 99 false
  | setscheduler policy prio _ done _ => exact (stores_setattr done).reset_nice rfl rfl _
  | setattr attr _ done _ => exact stores_setattr done
  | setparam prio _ done ih => exact ih.schedSetparam done

/-- In a queue that holds both, `thread` is picked although `other` has been there first. -/
def Prefers (thread other : SchedAttr) : Prop :=
  ∃ after, ((RealTimeClassRq.new.enqueue false other.prio).enqueue true thread.prio).pickNext = .ok (some true, after)

theorem prefers_of_lt (higher : thread.prio < other.prio) : thread.Prefers other := by
  have queued (best : Fin 100) := congrFun
    (RealTimeClassRq.queued_enqueue (.enqueue .new false other.prio) true thread.prio) best
  simp only [RealTimeClassRq.queued_enqueue .new false other.prio] at queued
  have waiting := queued thread.prio
  rw [update_self, update_of_ne higher.ne] at waiting
  refine RealTimeClassRq.sound_new.enqueue.enqueue.pickNext_best (fun _ => rfl) waiting fun best above => ?_
  rw [queued, update_of_ne above.ne, update_of_ne (above.trans higher).ne]
  rfl

def Ranks (thread : SchedAttr) (request : Request) (other : SchedAttr) (asked : Request) : Prop :=
  request.RealTime → asked.RealTime → asked.attr.schedPriority < request.attr.schedPriority → thread.Prefers other

/-- `sched_getattr` tells what has been set last, `sched_getparam` the same priority. -/
def RoundTrips (thread : SchedAttr) (request : Request) : Prop :=
  thread.schedGetattr = .ok request.attr ∧ thread.schedGetattr.map (·.schedPriority) = .ok thread.schedGetparam

theorem Stores.roundTrips_iff (stores : Stores thread request) : thread.RoundTrips request ↔ request.Plain := by
  unfold RoundTrips Request.Plain
  cases stores with
  | realTime prio policy nice | setparam prio policy nice =>
    cases policy <;> simp [Except.map, rtToStatic_half, @eq_comm _ 0 nice, and_comm]
  | normal nice index param =>
    have same : nice = Nice.max ↔ nice.1 = 19 := Subtype.ext_iff
    by_cases top : nice = Nice.max
    · simp [Nice.max, top]
    · simp [top, Except.map, mt same.2 top]
  | reset nice index param => simp [Nice.max, Except.map, eq_comm]
  | idle nice index param => simp [Except.map, eq_comm]

theorem Stores.ranks (stores : Stores thread request) (stored : Stores other asked)
    (converted : request.param = false) (same : asked.param = false) : thread.Ranks request other asked := by
  intro realTime rivals larger
  cases stores with
  | setparam => cases converted
  | normal | reset | idle => simp at realTime
  | realTime =>
    cases stored with
    | setparam => cases same
    | normal | reset | idle => simp at rivals
    | realTime => exact prefers_of_lt (rtToStatic_lt larger)

theorem parametersRoundTrip_iff (reached : Reaches thread request) (also : Reaches other asked) :
    (thread.RoundTrips request ∧ other.RoundTrips asked ∧ thread.Ranks request other asked ↔
        request.Plain ∧ asked.Plain) ∧
      (request.param = false → asked.param = false → thread.Ranks request other asked) := by
  rw [reached.stores.roundTrips_iff, also.stores.roundTrips_iff]
  refine ⟨⟨fun ⟨plain, plain', _⟩ => ⟨plain, plain'⟩, fun ⟨plain, plain'⟩ => ⟨plain, plain', ?_⟩⟩,
    reached.stores.ranks also.stores⟩
  intro realTime rivals larger
  rw [plain.1 realTime, plain'.1 rivals] at larger
  exact absurd larger (lt_irrefl _)

theorem roundTrips_halfway : ∃ thread : SchedAttr,
    thread.RoundTrips ⟨⟨1, 0, 50⟩, false, true⟩ ∧ thread.schedGetparam = 50 :=
  have plain : Request.Plain ⟨⟨1, 0, 50⟩, false, true⟩ := by simp [Request.Plain]
  ⟨_, ((parametersRoundTrip_iff (.setscheduler 1 50 .new rfl) (.setscheduler 1 50 .new rfl)).1.2
    ⟨plain, plain⟩).1, rfl⟩

/-- A FIFO thread of user priority 10 is reported with 90 by `sched_getparam`. Once `sched_setparam` has set 10 again,
`sched_getattr` reports 90. A thread of nice 5 is reported with 0 after `sched_setscheduler`. -/
theorem getparam_inverted : (∃ thread after, new.schedSetscheduler 1 10 = .ok thread ∧
    thread.schedGetattr = .ok ⟨1, 0, 10⟩ ∧ thread.schedGetparam = 90 ∧
    thread.schedSetparam 10 = .ok after ∧ after.schedGetattr = .ok ⟨1, 0, 90⟩) ∧
    ∃ thread after, new.schedSetattr ⟨0, 5, 0⟩ = .ok thread ∧ thread.schedGetattr = .ok ⟨0, 5, 0⟩ ∧
      thread.schedSetscheduler 0 0 = .ok after ∧ after.schedGetattr = .ok ⟨0, 0, 0⟩ :=
  ⟨⟨_, _, rfl, rfl, rfl, rfl, rfl⟩, _, _, rfl, rfl, rfl, rfl⟩

end SchedAttr

end Kei.Sched
