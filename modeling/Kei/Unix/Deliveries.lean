import Kei.Unix.Write

/-! What the two ends of a stream see of each other: the writes that were accepted, the reads that
took their bytes, and which read takes the first byte of a write. -/

namespace Kei.Unix

variable {φ κ : Type}

structure Message (φ : Type) where
  bytes : List UInt8
  files : List φ
  deriving DecidableEq

structure Receipt (φ : Type) where
  avail : Nat
  bytes : List UInt8
  files : List φ
  deriving DecidableEq

structure History (φ : Type) where
  accepted : List (Message φ)
  received : List (Receipt φ)
  deriving DecidableEq

def offset (parts : List (List UInt8)) (index : Nat) : Nat := (parts.take index).flatten.length

def Within (parts : List (List UInt8)) (index position : Nat) : Prop :=
  offset parts index ≤ position ∧ position < offset parts (index + 1)

namespace History

def written (history : History φ) : List (List UInt8) := history.accepted.map (·.bytes)

def taken (history : History φ) : List (List UInt8) := history.received.map (·.bytes)

def Shares (history : History φ) (write read : Nat) : Prop :=
  ∃ position, Within history.written write position ∧ Within history.taken read position

def First (history : History φ) (write read : Nat) : Prop :=
  history.Shares write read ∧ ∀ earlier < read, ¬history.Shares write earlier

/-- The bytes of a stream come out once and in order, and the files of a write go to the first
read that takes a byte of it, which takes the first byte of no other write with files. -/
structure Streams (history : History φ) (unread : List UInt8) : Prop where
  bytes : history.written.flatten = history.taken.flatten ++ unread
  files : ∀ read receipt write message, history.received[read]? = some receipt →
    history.accepted[write]? = some message → history.First write read → message.files ≠ [] →
    receipt.files = message.files
  source : ∀ read receipt, history.received[read]? = some receipt → receipt.files ≠ [] →
    ∃ write message, history.accepted[write]? = some message ∧ history.First write read ∧
      message.files = receipt.files
  single : ∀ read write message other otherMessage, history.accepted[write]? = some message →
    history.accepted[other]? = some otherMessage → message.files ≠ [] → otherMessage.files ≠ [] →
    history.First write read → history.First other read → other = write

structure Packets (history : History φ) (unread : List UInt8) : Prop where
  count : history.received.length ≤ history.accepted.length
  bytes : unread = (history.written.drop history.received.length).flatten
  message : ∀ (read : Nat) (receipt : Receipt φ), history.received[read]? = some receipt →
    ∃ message, history.accepted[read]? = some message ∧ receipt.bytes = message.bytes.take receipt.avail ∧
      receipt.files = message.files

end History

open History List

section Offsets

variable {parts : List (List UInt8)} {index : Nat}

@[simp]
theorem offset_zero (parts : List (List UInt8)) : offset parts 0 = 0 := rfl

@[simp]
theorem offset_cons (part : List UInt8) (parts : List (List UInt8)) (index : Nat) :
    offset (part :: parts) (index + 1) = part.length + offset parts index := by
  simp [offset]

theorem offset_succ (parts : List (List UInt8)) (index : Nat) :
    offset parts (index + 1) = offset parts index + (parts[index]?.getD []).length := by
  rw [offset, offset, take_add_one, flatten_append, length_append]
  cases parts[index]? <;> simp

theorem offset_mono (parts : List (List UInt8)) : Monotone (offset parts) := by
  apply monotone_nat_of_le_succ
  intro index
  rw [offset_succ]
  exact Nat.le_add_right _ _

theorem offset_le {earlier : Nat} (order : earlier < index) : offset parts (earlier + 1) ≤ offset parts index :=
  offset_mono parts order

theorem exists_within {position : Nat} (below : position < offset parts index) :
    ∃ earlier < index, Within parts earlier position := by
  induction index with
  | zero => cases below
  | succ index ih =>
    by_cases before : position < offset parts index
    · obtain ⟨earlier, order, within⟩ := ih before
      exact ⟨earlier, by omega, within⟩
    · exact ⟨index, Nat.lt_succ_self _, by omega, below⟩

theorem Within.unique {position other : Nat} (within : Within parts index position)
    (again : Within parts other position) : other = index := by
  rcases Nat.lt_trichotomy other index with before | same | later
  · have order := @offset_le parts _ _ before
    have upper := again.2
    have lower := within.1
    omega
  · exact same
  · have order := @offset_le parts _ _ later
    have upper := within.2
    have lower := again.1
    omega

end Offsets

namespace History

variable {history : History φ} {write read : Nat}

theorem first_iff : history.First write read ↔
    Within history.written write (offset history.written write) ∧
      Within history.taken read (offset history.written write) := by
  constructor
  · rintro ⟨⟨position, own, taken⟩, others⟩
    have filled : Within history.written write (offset history.written write) :=
      ⟨Nat.le_refl _, own.1.trans_lt own.2⟩
    refine ⟨filled, ?_, own.1.trans_lt taken.2⟩
    by_contra before
    obtain ⟨earlier, order, within⟩ := exists_within (Nat.lt_of_not_le before)
    exact others earlier order ⟨_, filled, within⟩
  · rintro ⟨filled, taken⟩
    refine ⟨⟨_, filled, taken⟩, ?_⟩
    rintro earlier order ⟨position, own, other⟩
    have mono := @offset_le history.taken _ _ order
    have low := own.1
    have high := other.2
    have start := taken.1
    omega

end History

def marks : Nat → List (Message φ) → List (Nat × List φ)
  | _, [] => []
  | position, message :: rest =>
    if message.bytes.isEmpty || message.files.isEmpty then marks (position + message.bytes.length) rest
    else (position, message.files) :: marks (position + message.bytes.length) rest

variable {message : Message φ}

theorem marks_cons_bare (bare : message.bytes = [] ∨ message.files = []) (position : Nat)
    (rest : List (Message φ)) :
    marks position (message :: rest) = marks (position + message.bytes.length) rest := by
  rw [marks, if_pos (by simpa using bare)]

theorem marks_cons_files (filled : message.bytes ≠ []) (some : message.files ≠ [])
    (position : Nat) (rest : List (Message φ)) :
    marks position (message :: rest) =
      (position, message.files) :: marks (position + message.bytes.length) rest := by
  rw [marks, if_neg (by simp [filled, some])]

theorem marks_append (position : Nat) (first second : List (Message φ)) :
    marks position (first ++ second) =
      marks position first ++ marks (position + (first.map (·.bytes)).flatten.length) second := by
  induction first generalizing position with
  | nil => rfl
  | cons message first ih =>
    have sum : position + ((message :: first).map (·.bytes)).flatten.length =
        position + message.bytes.length + (first.map (·.bytes)).flatten.length := by
      rw [map_cons, flatten_cons, length_append, Nat.add_assoc]
    rw [cons_append, marks, marks, ih, sum]
    split <;> rfl

variable {messages : List (Message φ)} {mark : Nat × List φ}

theorem mem_marks {position : Nat} :
    mark ∈ marks position messages ↔ ∃ (write : Nat) (message : Message φ), messages[write]? = some message ∧
      message.bytes ≠ [] ∧ message.files ≠ [] ∧
      mark = (position + offset (messages.map (·.bytes)) write, message.files) := by
  induction messages generalizing position with
  | nil => simp [marks]
  | cons message messages ih =>
    have later : mark ∈ marks (position + message.bytes.length) messages ↔
        ∃ (write : Nat) (found : Message φ), (message :: messages)[write + 1]? = some found ∧
          found.bytes ≠ [] ∧
          found.files ≠ [] ∧
          mark = (position + offset ((message :: messages).map (·.bytes)) (write + 1), found.files) := by
      rw [ih]
      simp only [map_cons, offset_cons, List.getElem?_cons_succ, Nat.add_assoc]
    by_cases bare : message.bytes = [] ∨ message.files = []
    · rw [marks_cons_bare bare, later]
      constructor
      · rintro ⟨write, found⟩
        exact ⟨write + 1, found⟩
      · rintro ⟨_ | write, found, same, filled, some, rest⟩
        · obtain rfl := Option.some.inj same
          exact absurd bare (by simp [filled, some])
        · exact ⟨write, found, same, filled, some, rest⟩
    · obtain ⟨filled, some⟩ := not_or.mp bare
      rw [marks_cons_files filled some, mem_cons, later]
      constructor
      · rintro (rfl | ⟨write, found⟩)
        · exact ⟨0, message, rfl, filled, some, rfl⟩
        · exact ⟨write + 1, found⟩
      · rintro ⟨_ | write, found, same, rest⟩
        · obtain rfl := Option.some.inj same
          exact .inl rest.2.2
        · exact .inr ⟨write, found, same, rest⟩

theorem le_of_mem_marks {position : Nat}
    (member : mark ∈ marks position messages) : position ≤ mark.1 := by
  obtain ⟨write, message, _, _, _, rfl⟩ := mem_marks.mp member
  exact Nat.le_add_right _ _

def Delivers (position stop : Nat) (files : List φ) (taken : List (Nat × List φ)) : Prop :=
  taken = [] ∧ files = [] ∨ ∃ start, taken = [(start, files)] ∧ files ≠ [] ∧ position ≤ start ∧
    start < stop

inductive Served : Nat → List (Receipt φ) → List (Nat × List φ) → List (Nat × List φ) → Prop
  | done {position : Nat} {rest : List (Nat × List φ)} : Served position [] rest rest
  | receipt {position : Nat} {receipt : Receipt φ} {receipts : List (Receipt φ)}
    {taken later rest : List (Nat × List φ)}
    (delivers : Delivers position (position + receipt.bytes.length) receipt.files taken)
    (served : Served (position + receipt.bytes.length) receipts later rest) :
    Served position (receipt :: receipts) (taken ++ later) rest

namespace Served

variable {position : Nat} {receipts : List (Receipt φ)} {all rest : List (Nat × List φ)}

theorem more (served : Served position receipts all rest) (others : List (Nat × List φ)) :
    Served position receipts (all ++ others) (rest ++ others) := by
  induction served with
  | done => exact .done
  | receipt delivers served ih =>
    rw [append_assoc]
    exact .receipt delivers ih

variable {receipt : Receipt φ}

theorem concat {taken : List (Nat × List φ)}
    (served : Served position receipts all (taken ++ rest))
    (delivers : Delivers (position + (receipts.map (·.bytes)).flatten.length)
      (position + (receipts.map (·.bytes)).flatten.length + receipt.bytes.length) receipt.files taken) :
    Served position (receipts ++ [receipt]) all rest := by
  generalize same : taken ++ rest = remaining at served
  induction served with
  | done =>
    subst same
    exact .receipt delivers .done
  | @receipt position first receipts before later remaining own served ih =>
    refine .receipt own (ih ?_ same)
    rwa [map_cons, flatten_cons, length_append, ← Nat.add_assoc] at delivers

section

variable (served : Served position receipts all rest)
  (above : ∀ mark ∈ rest, position + (receipts.map (·.bytes)).flatten.length ≤ mark.1)
include served above

theorem le_of_mem : ∀ mark ∈ all, position ≤ mark.1 := by
  induction served with
  | done => exact fun mark member => (Nat.le_add_right _ _).trans (above mark member)
  | @receipt position receipt receipts taken later rest delivers served ih =>
    intro mark member
    rcases mem_append.mp member with own | after
    · rcases delivers with ⟨rfl, _⟩ | ⟨start, rfl, _, low, _⟩
      · cases own
      · obtain rfl := mem_singleton.mp own
        exact low
    · refine (Nat.le_add_right _ _).trans (ih ?_ mark after)
      simpa [Nat.add_assoc] using above

theorem window {read : Nat} (found : receipts[read]? = some receipt) :
    ∃ taken, Delivers (position + offset (receipts.map (·.bytes)) read)
        (position + offset (receipts.map (·.bytes)) (read + 1)) receipt.files taken ∧
      ∀ mark, mark ∈ taken ↔ mark ∈ all ∧ position + offset (receipts.map (·.bytes)) read ≤ mark.1 ∧
        mark.1 < position + offset (receipts.map (·.bytes)) (read + 1) := by
  induction served generalizing read with
  | done => cases found
  | @receipt position first receipts taken later rest delivers served ih =>
    have above : ∀ mark ∈ rest,
        position + first.bytes.length + (receipts.map (·.bytes)).flatten.length ≤ mark.1 := by
      simpa [Nat.add_assoc] using above
    have beyond := served.le_of_mem above
    have inside : ∀ mark ∈ taken, position ≤ mark.1 ∧ mark.1 < position + first.bytes.length := by
      intro mark own
      rcases delivers with ⟨rfl, _⟩ | ⟨start, rfl, _, low, high⟩
      · cases own
      · obtain rfl := mem_singleton.mp own
        exact ⟨low, high⟩
    cases read with
    | zero =>
      obtain rfl := Option.some.inj found
      simp only [map_cons, offset_zero, offset_cons, Nat.add_zero, mem_append]
      refine ⟨taken, delivers, fun mark => ?_⟩
      constructor
      · intro own
        exact ⟨.inl own, inside mark own⟩
      · rintro ⟨own | after, _, high⟩
        · exact own
        · have low := beyond mark after
          omega
    | succ read =>
      obtain ⟨own, delivered, exactly⟩ := ih above found
      simp only [map_cons, offset_cons, ← Nat.add_assoc, mem_append]
      refine ⟨own, delivered, fun mark => (exactly mark).trans ?_⟩
      constructor
      · rintro ⟨member, range⟩
        exact ⟨.inr member, range⟩
      · rintro ⟨before | member, low, high⟩
        · have upper := (inside mark before).2
          omega
        · exact ⟨member, low, high⟩

end

theorem streams {history : History φ} {unread : List UInt8}
    (bytes : history.written.flatten = history.taken.flatten ++ unread)
    (served : Served 0 history.received (marks 0 history.accepted) rest)
    (above : ∀ mark ∈ rest, history.taken.flatten.length ≤ mark.1) : history.Streams unread := by
  have opened : ∀ {write read : Nat} {message : Message φ}, history.accepted[write]? = some message →
      history.First write read → message.files ≠ [] →
      (offset history.written write, message.files) ∈ marks 0 history.accepted ∧
        Within history.taken read (offset history.written write) := by
    intro write read message found first files
    obtain ⟨filled, within⟩ := first_iff.mp first
    refine ⟨mem_marks.mpr ⟨write, message, found, ?_, files, by rw [Nat.zero_add]; rfl⟩, within⟩
    intro empty
    have strict := filled.2
    rw [offset_succ, written, List.getElem?_map, found] at strict
    simp [empty] at strict
  have above : ∀ mark ∈ rest, 0 + (history.received.map (·.bytes)).flatten.length ≤ mark.1 := by
    rw [Nat.zero_add]
    exact above
  have windows : ∀ {read : Nat} {receipt : Receipt φ}, history.received[read]? = some receipt →
      ∃ taken, Delivers (offset history.taken read) (offset history.taken (read + 1)) receipt.files taken ∧
        ∀ mark, mark ∈ taken ↔ mark ∈ marks 0 history.accepted ∧ Within history.taken read mark.1 := by
    intro read receipt found
    have window := served.window above found
    rwa [Nat.zero_add, Nat.zero_add] at window
  refine ⟨bytes, ?_, ?_, ?_⟩
  · intro read receipt write message received accepted first files
    obtain ⟨taken, delivers, exactly⟩ := windows received
    have member := (exactly _).mpr (opened accepted first files)
    rcases delivers with ⟨rfl, _⟩ | ⟨start, rfl, _⟩
    · cases member
    · exact (Prod.mk.inj (mem_singleton.mp member)).2.symm
  · intro read receipt received files
    obtain ⟨taken, delivers, exactly⟩ := windows received
    rcases delivers with ⟨_, none⟩ | ⟨start, rfl, _⟩
    · exact absurd none files
    · obtain ⟨member, within⟩ := (exactly _).mp (mem_singleton_self _)
      obtain ⟨write, message, found, filled, _, same⟩ := mem_marks.mp member
      obtain ⟨rfl, own⟩ := Prod.mk.inj same
      refine ⟨write, message, found, first_iff.mpr ⟨⟨Nat.le_refl _, ?_⟩, ?_⟩, own.symm⟩
      · rw [offset_succ, written, List.getElem?_map, found]
        have := length_pos_iff.mpr filled
        simp only [Option.map_some, Option.getD_some]
        omega
      · rw [Nat.zero_add] at within
        exact within
  · intro read write message other otherMessage accepted otherAccepted files otherFiles first otherFirst
    obtain ⟨receipt, received⟩ : ∃ receipt, history.received[read]? = some receipt := by
      refine Option.ne_none_iff_exists'.mp fun bare => ?_
      have within := (first_iff.mp first).2
      have strict := within.1.trans_lt within.2
      rw [offset_succ, taken, List.getElem?_map, bare] at strict
      simp at strict
    obtain ⟨taken, delivers, exactly⟩ := windows received
    have one := (exactly _).mpr (opened accepted first files)
    have two := (exactly _).mpr (opened otherAccepted otherFirst otherFiles)
    rcases delivers with ⟨rfl, _⟩ | ⟨start, rfl, _⟩
    · cases one
    · have first := first_iff.mp first
      have second := first_iff.mp otherFirst
      have same : offset history.written other = offset history.written write :=
        (Prod.mk.inj (mem_singleton.mp two)).1.trans (Prod.mk.inj (mem_singleton.mp one)).1.symm
      exact first.1.unique (same ▸ second.1)

end Served

end Kei.Unix
