import Kei.Sync.RwLock

/-! Exclusion: the flags and the count of the word are the sums of what the threads have put
there, whether for a guard or for an attempt that is still to be taken back. -/

namespace Kei.Sync

open Function Finset Thread

/-! What an attempt has in the word: the writer bit, the upgradeable bit, the bit that announces
an upgrade, and one of the readers. An upgradeable guard that is being upgraded or made is one. -/

@[simp]
def Attempt.writing : Attempt → Nat
  | .upgraded => 1
  | _ => 0

@[simp]
def Attempt.upgradeables : Attempt → Nat
  | .upgrading | .downgraded => 1
  | _ => 0

@[simp]
def Attempt.upreading : Attempt → Nat
  | .undoUpread | .upgrading | .upgraded | .downgraded => 1
  | _ => 0

@[simp]
def Attempt.announcing : Attempt → Nat
  | .upgrading => 1
  | _ => 0

@[simp]
def Attempt.undoing : Attempt → Nat
  | .undoRead => 1
  | _ => 0

namespace Thread

@[simp]
def writing (thread : Thread) : Nat := thread.writes + thread.attempt.writing

@[simp]
def upgradeables (thread : Thread) : Nat := thread.upreads + thread.attempt.upgradeables

@[simp]
def upreading (thread : Thread) : Nat := thread.upreads + thread.attempt.upreading

@[simp]
def announcing (thread : Thread) : Nat := thread.attempt.announcing

@[simp]
def undoing (thread : Thread) : Nat := thread.attempt.undoing

end Thread

/-- What threads have in the word and which guards they hold, summed up. -/
structure Counts where
  writing : Nat
  upgradeables : Nat
  upreading : Nat
  announcing : Nat
  reads : Nat
  undoing : Nat

namespace Counts

/-- The counts of a thread beside those of the others. -/
@[simp]
def beside (others : Counts) (thread : Thread) : Counts where
  writing := others.writing + thread.writing
  upgradeables := others.upgradeables + thread.upgradeables
  upreading := others.upreading + thread.upreading
  announcing := others.announcing + thread.announcing
  reads := others.reads + thread.reads
  undoing := others.undoing + thread.undoing

/-- The flags and the count that the word has. -/
@[simp]
def Packed (counts : Counts) (w u b r : Nat) : Prop :=
  (0 < w ↔ 0 < counts.writing) ∧ (0 < u ↔ 0 < counts.upreading) ∧ (0 < b ↔ 0 < counts.announcing) ∧
    r = counts.reads + counts.undoing

@[simp]
def Exclusive (counts : Counts) : Prop :=
  counts.writing ≤ 1 ∧ counts.upreading ≤ 1 ∧ counts.reads ≤ 2 ^ 60 ∧
    (counts.writing = 0 ∨ counts.reads = 0 ∧ counts.upgradeables = 0)

def Fits (counts : Counts) (lock : Word) : Prop :=
  lock = packed counts.writing counts.upreading counts.announcing (counts.reads + counts.undoing) ∧ counts.Exclusive

/-- The word and the thread go with what the other threads have. -/
def Admits (others : Counts) (outcome : Word × Thread) : Prop := (others.beside outcome.2).Fits outcome.1

variable {others : Counts} {thread : Thread} {kind : Kind} {lock : Word}

theorem admits_of_packed {w u b r : Nat} (same : lock = packed w u b r)
    (right : (others.beside thread).Packed w u b r ∧ (others.beside thread).Exclusive) :
    others.Admits (lock, thread) := by
  obtain ⟨⟨one, two, three, four⟩, exclusive⟩ := right
  exact ⟨same.trans (packed_congr one two three four), exclusive⟩

section

variable {reads upreads writes : Nat} (few : others.announcing ≤ others.upgradeables ∧
  others.upgradeables ≤ others.upreading ∧ others.undoing + 1 < 2 ^ 60)
include few

theorem Fits.tryRead (fits : (others.beside ⟨reads, upreads, writes, .none⟩).Fits lock) :
    others.Admits (Thread.tryRead lock ⟨reads, upreads, writes, .none⟩) := by
  obtain ⟨rfl, exclusive⟩ := fits
  simp at exclusive
  rw [Thread.tryRead]
  split
  case isTrue free =>
    rw [packed_and_read (by simp; omega)] at free
    exact admits_of_packed (packed_add_reader (by simp; omega)) (by simp at free ⊢; omega)
  case isFalse => exact admits_of_packed (packed_add_reader (by simp; omega)) (by simp; omega)

theorem Fits.tryWrite (fits : (others.beside ⟨reads, upreads, writes, .none⟩).Fits lock) :
    others.Admits (Thread.tryWrite lock ⟨reads, upreads, writes, .none⟩) := by
  rw [Thread.tryWrite]
  split
  case isTrue free =>
    obtain ⟨rfl, exclusive⟩ := fits
    simp at exclusive
    rw [← packed_zero, packed_eq_iff (by simp; omega) (by omega)] at free
    exact admits_of_packed packed_writer.symm (by simp at free ⊢; omega)
  case isFalse => exact fits

theorem Fits.tryUpread (fits : (others.beside ⟨reads, upreads, writes, .none⟩).Fits lock) :
    others.Admits (Thread.tryUpread lock ⟨reads, upreads, writes, .none⟩) := by
  obtain ⟨rfl, exclusive⟩ := fits
  simp at exclusive
  rw [Thread.tryUpread]
  split
  case isTrue free =>
    rw [packed_and_flags, ← packed_zero, packed_eq_iff (by omega) (by omega)] at free
    exact admits_of_packed packed_or_upgradeableReader (by simp at free ⊢; omega)
  case isFalse taken =>
    rw [packed_and_flags, ← packed_zero, packed_eq_iff (by omega) (by omega)] at taken
    split
    case isTrue written =>
      rw [packed_and_flags, ← packed_writer, packed_eq_iff (by omega) (by omega)] at written
      exact admits_of_packed packed_or_upgradeableReader (by simp at written ⊢; omega)
    case isFalse held =>
      rw [packed_and_flags, ← packed_writer, packed_eq_iff (by omega) (by omega)] at held
      exact admits_of_packed packed_or_upgradeableReader (by simp at taken held ⊢; omega)

theorem Fits.tryUpgrade (fits : (others.beside ⟨reads, upreads, writes, .upgrading⟩).Fits lock) :
    others.Admits (Thread.tryUpgrade lock ⟨reads, upreads, writes, .upgrading⟩) := by
  rw [Thread.tryUpgrade]
  split
  case isTrue alone =>
    obtain ⟨rfl, exclusive⟩ := fits
    simp at exclusive
    rw [← packed_upgrading, packed_eq_iff (by simp; omega) (by omega)] at alone
    exact admits_of_packed packed_upgraded.symm (by simp at alone ⊢; omega)
  case isFalse => exact fits

theorem Fits.tryDowngrade (fits : (others.beside ⟨reads, upreads, writes, .none⟩).Fits lock) (some : 0 < writes) :
    others.Admits (Thread.tryDowngrade lock ⟨reads, upreads, writes, .none⟩) := by
  rw [Thread.tryDowngrade]
  split
  case isTrue alone =>
    obtain ⟨rfl, exclusive⟩ := fits
    simp at exclusive
    rw [← packed_writer, packed_eq_iff (by simp; omega) (by omega)] at alone
    exact admits_of_packed packed_upgradeableReader.symm (by simp at alone ⊢; omega)
  case isFalse => exact fits

theorem Fits.access {access : Access} (fits : (others.beside thread).Fits lock)
    (enabled : thread.enabled kind access = true) : others.Admits (thread.access lock access) := by
  rcases thread with ⟨reads, upreads, writes, attempt⟩
  cases access <;> simp only [Thread.enabled, Bool.and_eq_true, decide_eq_true_eq] at enabled
  case tryRead =>
    subst enabled
    exact fits.tryRead few
  case tryWrite =>
    subst enabled
    exact fits.tryWrite few
  case tryUpread =>
    subst enabled
    exact fits.tryUpread few
  case tryUpgrade =>
    subst enabled
    exact fits.tryUpgrade few
  case tryDowngrade =>
    obtain ⟨⟨-, rfl⟩, some⟩ := enabled
    exact fits.tryDowngrade few some
  all_goals obtain ⟨rfl, exclusive⟩ := fits
  case undoRead =>
    subst enabled
    simp at exclusive
    exact admits_of_packed (packed_sub_reader (by simp) (by simp; omega)) (by simp; omega)
  case undoUpread =>
    subst enabled
    simp at exclusive
    exact admits_of_packed (packed_sub_upgradeableReader (by simp) (by simp; omega)) (by simp; omega)
  case upgrade =>
    obtain ⟨rfl, some⟩ := enabled
    simp at exclusive
    exact admits_of_packed packed_or_beingUpgraded (by simp; omega)
  case finishUpgrade =>
    subst enabled
    simp at exclusive
    exact admits_of_packed (packed_sub_upgradeableReader (by simp) (by simp; omega)) (by simp; omega)
  case finishDowngrade =>
    subst enabled
    simp at exclusive
    exact admits_of_packed packed_and_not_writer (by simp; omega)
  case dropRead =>
    obtain ⟨rfl, some⟩ := enabled
    simp at exclusive
    exact admits_of_packed (packed_sub_reader (by simp; omega) (by simp; omega)) (by simp; omega)
  case dropUpread =>
    obtain ⟨rfl, some⟩ := enabled
    simp at exclusive
    exact admits_of_packed (packed_sub_upgradeableReader (by simp; omega) (by simp; omega)) (by simp; omega)
  case dropWrite =>
    obtain ⟨rfl, some⟩ := enabled
    simp at exclusive
    exact admits_of_packed packed_and_not_writer (by simp; omega)

end

end Counts

namespace State

variable {ι : Type} [Fintype ι]

def total (part : Thread → Nat) (state : State ι) : Nat := ∑ index, part (state.thread index)

theorem le_total (part : Thread → Nat) (state : State ι) (index : ι) :
    part (state.thread index) ≤ total part state :=
  single_le_sum (f := fun place => part (state.thread place)) (fun _ _ => Nat.zero_le _) (mem_univ index)

/-- The counts of some of the threads. -/
def counts (state : State ι) (places : Finset ι) : Counts where
  writing := ∑ place ∈ places, (state.thread place).writing
  upgradeables := ∑ place ∈ places, (state.thread place).upgradeables
  upreading := ∑ place ∈ places, (state.thread place).upreading
  announcing := ∑ place ∈ places, (state.thread place).announcing
  reads := ∑ place ∈ places, (state.thread place).reads
  undoing := ∑ place ∈ places, (state.thread place).undoing

def Sound (state : State ι) : Prop := (state.counts univ).Fits state.lock

omit [Fintype ι] in
theorem counts_le (state : State ι) (places : Finset ι) :
    (state.counts places).announcing ≤ (state.counts places).upgradeables ∧
      (state.counts places).upgradeables ≤ (state.counts places).upreading ∧
      (state.counts places).undoing ≤ places.card := by
  refine ⟨sum_le_sum ?_, sum_le_sum ?_, ?_⟩
  · intro place _
    cases attempt : (state.thread place).attempt <;> simp [attempt]
  · intro place _
    cases attempt : (state.thread place).attempt <;> simp [attempt]
  · rw [card_eq_sum_ones]
    refine sum_le_sum fun place _ => ?_
    cases attempt : (state.thread place).attempt <;> simp [attempt]

theorem new_sound : Sound (new : State ι) := by
  refine ⟨?_, ?_⟩
  · simp [counts, new, packed_zero]
  · simp [counts, new]

variable {state : State ι}

theorem Sound.totals (sound : state.Sound) :
    state.lock = packed (total writing state) (total upreading state) (total announcing state)
        (total reads state + total undoing state) ∧
      total writing state ≤ 1 ∧ total upreading state ≤ 1 ∧ total reads state ≤ 2 ^ 60 ∧
      (total writing state = 0 ∨ total reads state = 0 ∧ total upgradeables state = 0) := sound

theorem totals_le (state : State ι) : total announcing state ≤ total upgradeables state ∧
    total upgradeables state ≤ total upreading state ∧ total undoing state ≤ Fintype.card ι :=
  state.counts_le univ

section Steps

variable [DecidableEq ι] {kind : Kind}

theorem counts_beside (state : State ι) (index : ι) :
    state.counts univ = (state.counts (univ.erase index)).beside (state.thread index) := by
  simp only [counts, Counts.beside, sum_erase_add _ _ (mem_univ index)]

theorem counts_put (index : ι) (outcome : Word × Thread) :
    (state.put index outcome).counts univ = (state.counts (univ.erase index)).beside outcome.2 := by
  have others : (state.put index outcome).counts (univ.erase index) = state.counts (univ.erase index) := by
    have same : ∀ place ∈ univ.erase index, (state.put index outcome).thread place = state.thread place :=
      fun place other => update_of_ne (ne_of_mem_erase other) _ _
    unfold counts
    congr 1 <;> exact sum_congr rfl fun place other => by rw [same place other]
  rw [counts_beside _ index, others]
  simp [put]

variable (sound : state.Sound) (few : Fintype.card ι < 2 ^ 60)
include sound few

theorem step_sound {event : ι × Access} {after : State ι}
    (steps : state.step kind event = some after) : after.Sound := by
  rw [step] at steps
  split at steps
  case isTrue enabled =>
    obtain rfl := Option.some.inj steps
    have bounds := state.counts_le (univ.erase event.1)
    rw [card_erase_of_mem (mem_univ _), card_univ] at bounds
    have some : 0 < Fintype.card ι := Fintype.card_pos_iff.mpr ⟨event.1⟩
    rw [Sound, counts_beside state event.1] at sound
    rw [Sound, counts_put]
    exact sound.access (by omega) enabled
  case isFalse => contradiction

theorem steps_sound {events : List (ι × Access)} {after : State ι}
    (runs : events.foldlM (step kind) state = some after) : after.Sound := by
  induction events generalizing state with
  | nil =>
    obtain rfl := Option.some.inj runs
    exact sound
  | cons event events ih =>
    rw [List.foldlM_cons, Option.bind_eq_bind, Option.bind_eq_some_iff] at runs
    obtain ⟨next, steps, runs⟩ := runs
    exact ih (step_sound sound few steps) runs

end Steps

def Idle (thread : Thread) : Prop :=
  thread.reads = 0 ∧ thread.upreads = 0 ∧ thread.writes = 0 ∧ thread.attempt = .none

theorem Sound.lock_of_idle (sound : state.Sound)
    (idle : ∀ index, Idle (state.thread index)) : state.lock = 0 := by
  have none : ∀ part : Thread → Nat, (∀ thread, Idle thread → part thread = 0) → total part state = 0 :=
    fun part zero => sum_eq_zero fun index _ => zero _ (idle index)
  have writing := none Thread.writing (by rintro thread ⟨_, _, writes, attempt⟩; simp [writes, attempt])
  have upreading := none Thread.upreading (by rintro thread ⟨_, upreads, _, attempt⟩; simp [upreads, attempt])
  have announcing := none announcing (by rintro thread ⟨_, _, _, attempt⟩; simp [attempt])
  have reads := none Thread.reads (fun thread idle => idle.1)
  have undoing := none undoing (by rintro thread ⟨_, _, _, attempt⟩; simp [attempt])
  rw [sound.totals.1, writing, upreading, announcing, reads, undoing]
  exact packed_zero

/-- Exclusion in every state of every run. A guard that `upgrade` or `downgrade` has yet to return
counts from the exchange of the word on, and the guard it consumes up to there. -/
theorem run_excludes {ι : Type} [Fintype ι] [DecidableEq ι] (kind : Kind) (few : Fintype.card ι < 2 ^ 60)
    (events : List (ι × Access)) (state : State ι) (runs : run kind events = some state) :
    (0 < total writing state → total writing state = 1 ∧
      total upgradeables state = 0 ∧ total reads state = 0) ∧
    total upgradeables state ≤ 1 ∧
    (∀ index, (state.thread index).attempt = .upgraded → total reads state = 0) ∧
    ((∀ index, Idle (state.thread index)) → state.lock = 0) := by
  have sound : state.Sound := steps_sound new_sound few runs
  have bounds := totals_le state
  obtain ⟨-, writing, upreading, -, exclusive⟩ := sound.totals
  refine ⟨fun held => by omega, by omega, fun index amid => ?_, sound.lock_of_idle⟩
  have own := le_total Thread.writing state index
  simp only [Thread.writing, amid, Attempt.writing] at own
  omega

def contended : List (Fin 3 × Access) :=
  [(0, .tryUpread), (1, .tryRead), (0, .upgrade), (2, .tryRead), (0, .tryUpgrade), (1, .dropRead),
    (2, .undoRead), (0, .tryUpgrade), (0, .finishUpgrade)]

theorem contended_excludes : ∃ state, run .rwLock contended = some state ∧ (state.thread 0).writes = 1 ∧
    total upgradeables state = 0 ∧ total reads state = 0 := by
  have runs : (run .rwLock contended).isSome := by decide
  obtain ⟨state, runs⟩ := Option.isSome_iff_exists.mp runs
  have writes : (run .rwLock contended).map (fun state => (state.thread 0).writes) = some 1 := by decide
  rw [runs] at writes
  have one : (state.thread 0).writes = 1 := Option.some.inj writes
  have own := le_total writing state 0
  simp only [writing] at own
  have excludes := run_excludes .rwLock (by decide) contended state runs
  exact ⟨state, runs, one, (excludes.1 (by omega)).2⟩

/-- In every state of every run a call is refused for a cause, a guard or an attempt in the way. A
write guard is only kept from being downgraded by attempts that are about to be taken back. -/
theorem run_grants {ι : Type} [Fintype ι] [DecidableEq ι] (kind : Kind) (few : Fintype.card ι < 2 ^ 60)
    (events : List (ι × Access)) (state : State ι) (runs : run kind events = some state) {index : ι}
    {thread : Thread} (own : state.thread index = thread) :
    ((thread.tryRead state.lock).2.reads = thread.reads + 1 ↔
      total writing state = 0 ∧ total announcing state = 0 ∧ total reads state + total undoing state < 2 ^ 60) ∧
    ((thread.tryWrite state.lock).2.writes = thread.writes + 1 ↔
      total writing state = 0 ∧ total upreading state = 0 ∧ total reads state = 0 ∧ total undoing state = 0) ∧
    ((thread.tryUpread state.lock).2.upreads = thread.upreads + 1 ↔
      total writing state = 0 ∧ total upreading state = 0) ∧
    (thread.attempt = .upgrading → ((thread.tryUpgrade state.lock).2.attempt = .upgraded ↔
      total reads state = 0 ∧ total undoing state = 0)) ∧
    (thread.attempt = .none → 0 < thread.writes → ((thread.tryDowngrade state.lock).2.attempt = .downgraded ↔
      total upreading state = 0 ∧ total undoing state = 0)) := by
  subst own
  have sound : state.Sound := steps_sound new_sound few runs
  have bounds := totals_le state
  obtain ⟨lock, writing, upreading, read, exclusive⟩ := sound.totals
  have bound : total Thread.reads state + total Thread.undoing state < 2 ^ 61 := by omega
  refine ⟨?_, ?_, ?_, fun amid => ?_, fun idle held => ?_⟩
  · simp only [Thread.tryRead, lock, packed_and_read bound]
    split <;> simp <;> omega
  · simp only [Thread.tryWrite, lock, ← packed_zero, packed_eq_iff bound (Nat.two_pow_pos 61)]
    split <;> simp <;> omega
  · simp only [Thread.tryUpread, lock, packed_and_flags, ← packed_zero,
      packed_eq_iff (Nat.two_pow_pos 61) (Nat.two_pow_pos 61), and_true]
    split
    case isTrue => simp; omega
    case isFalse => split <;> simp <;> omega
  · have own := le_total Thread.upgradeables state index
    have asked := le_total Thread.announcing state index
    simp only [Thread.upgradeables, Thread.announcing, amid, Attempt.upgradeables, Attempt.announcing] at own asked
    simp only [Thread.tryUpgrade, lock, ← packed_upgrading, packed_eq_iff bound (Nat.two_pow_pos 61)]
    split <;> simp [amid] <;> omega
  · have own := le_total Thread.writing state index
    simp only [Thread.writing] at own
    simp only [Thread.tryDowngrade, lock, ← packed_writer, packed_eq_iff bound (Nat.two_pow_pos 61)]
    split <;> simp [idle] <;> omega

theorem contended_waits : ∃ state, run .rwLock (contended.take 4) = some state ∧
    (((state.thread 0).tryUpgrade state.lock).2.attempt = .upgraded ↔
      total reads state = 0 ∧ total undoing state = 0) :=
  ⟨_, rfl, (@run_grants (Fin 3) _ _ .rwLock (by decide) (contended.take 4) _ rfl 0 _ rfl).2.2.2.1 rfl⟩

end State

end Kei.Sync
