import Kei.SecureDisk.Recovery
import Kei.Library.Buffer

/-! The bytes of a WAL. Entries are buffered, and the buffer is filled up with zeros to whole blocks
when it is flushed. Recovery skips the zeros and reads the entries back. -/

namespace Kei.SecureDisk

open Library Checked List Buffer

def blockSize : Nat := 4096

def WalAppendTx.bufCap : Nat := 1024 * blockSize

def WalAppendTx.maxRecordSize : Nat := 49

def minRecordSize : Nat := 9

/-- A type of values that are stored as their bytes. -/
structure Pod (V : Type) where
  size : Nat
  asBytes : V → List UInt8
  fromBytes : List UInt8 → V
  length_asBytes : ∀ value, (asBytes value).length = size
  fromBytes_asBytes : ∀ value, fromBytes (asBytes value) = value

variable {V : Type} (pod : Pod V)

namespace WalEntry

def bytes : WalEntry V → List UInt8
  | record key value => 13 :: (toLe 8 key ++ pod.asBytes value)
  | sync syncId => 23 :: toLe 8 syncId

def Fits : WalEntry V → Prop
  | record number _ | sync number => number < 256 ^ 8

end WalEntry

def alignRecordBuf (recordBuf : List UInt8) : List UInt8 :=
  recordBuf ++ replicate ((blockSize - recordBuf.length % blockSize) % blockSize) 0

/-- A log and what is buffered for it. -/
structure WalBuf where
  log : List UInt8
  recordBuf : List UInt8

namespace WalBuf

def flush (buf : WalBuf) : WalBuf := ⟨buf.log ++ alignRecordBuf buf.recordBuf, []⟩

def append (buf : WalBuf) (entry : WalEntry V) : WalBuf :=
  let buf := { buf with recordBuf := buf.recordBuf ++ entry.bytes pod }
  match entry with
  | .record .. => if buf.recordBuf.length ≤ WalAppendTx.bufCap - WalAppendTx.maxRecordSize then buf else buf.flush
  | .sync _ => buf

/-- A TX appends its entries to the log, and its end flushes the buffer. -/
def writeTx (log : List UInt8) (entries : List (WalEntry V)) : List UInt8 :=
  (entries.foldl (append pod) ⟨log, []⟩).flush.log

end WalBuf

/-- The loop of `collect_synced_records_and_sync_id` over the bytes from the offset on. -/
def WalScan.read : Nat → List UInt8 → WalScan V → Checked (WalScan V)
  | 0, _, _ => .error .hang
  | turns + 1, bytes, scan =>
    if bytes.length < minRecordSize then .ok scan
    else do
      let flag ← index bytes 0
      let rest := bytes.drop 1
      if flag = 13 then
        let key ← slice rest 0 8
        let value ← slice rest 8 (8 + pod.size)
        read turns (rest.drop (8 + pod.size)) (scan.add (.record (ofLe key) (pod.fromBytes value)))
      else if flag = 23 then
        let syncId ← slice rest 0 8
        read turns (rest.drop 8) (scan.add (.sync (ofLe syncId)))
      else read turns rest scan

/-- The same function on the bytes of the log; the subtraction stands in the loop's condition. -/
def WalAppendTx.collectFromBytes (wal : List UInt8) : Checked (List (Nat × V) × Nat) := do
  let _ ← sub wal.length minRecordSize
  let scan ← WalScan.read pod (wal.length + 1) wal .new
  .ok scan.synced

namespace WalScan

def Reads (bytes : List UInt8) (scan result : WalScan V) : Prop :=
  ∀ turns, bytes.length < turns → read pod turns bytes scan = .ok result

/-- Whatever follows the bytes, the loop first reads these entries. -/
def Holds (bytes : List UInt8) (entries : List (WalEntry V)) : Prop :=
  minRecordSize * entries.length ≤ bytes.length ∧
    ∀ rest scan result, Reads pod rest (entries.foldl add scan) result → Reads pod (bytes ++ rest) scan result

variable {pod} {bytes more : List UInt8} {entries later : List (WalEntry V)}

theorem Holds.append (first : Holds pod bytes entries) (second : Holds pod more later) :
    Holds pod (bytes ++ more) (entries ++ later) := by
  refine ⟨?_, fun rest scan result reads => ?_⟩
  · rw [length_append, length_append, Nat.mul_add]
    exact Nat.add_le_add first.1 second.1
  · rw [foldl_append] at reads
    rw [append_assoc]
    exact first.2 _ _ _ (second.2 _ _ _ reads)

theorem holds_zeros (count : Nat) : Holds pod (replicate count 0) [] := by
  refine ⟨Nat.zero_le _, fun rest scan result reads => ?_⟩
  induction count with
  | zero => exact reads
  | succ count tail =>
    intro turns enough
    rw [replicate_succ, cons_append] at enough ⊢
    cases turns with
    | zero => cases enough
    | succ turns =>
      rw [length_cons] at enough
      by_cases short : (replicate count 0 ++ rest).length + 1 < minRecordSize
      · have ended := tail _ (Nat.lt_succ_self _)
        rw [read, if_pos (Nat.lt_of_succ_lt short)] at ended
        rw [read, length_cons, if_pos short]
        exact ended
      · rw [read, length_cons, if_neg short]
        exact tail turns (Nat.lt_of_succ_lt_succ enough)

theorem holds_entry {entry : WalEntry V} (fits : entry.Fits) : Holds pod (entry.bytes pod) [entry] := by
  refine ⟨by cases entry <;> simp [WalEntry.bytes, minRecordSize], fun rest scan result reads turns enough => ?_⟩
  cases turns with
  | zero => cases enough
  | succ turns =>
    cases entry with
    | record key value =>
      have width := pod.length_asBytes value
      have stored : (pod.asBytes value ++ rest).take pod.size = pod.asBytes value := take_left' width
      have left : (toLe 8 key ++ (pod.asBytes value ++ rest)).drop (8 + pod.size) = rest := by
        simp [← drop_drop, ← width]
      simp [WalEntry.bytes, read, minRecordSize, index, slice, bind_ok, width, stored, left, ofLe_toLe fits,
        pod.fromBytes_asBytes] at enough ⊢
      rw [if_neg (by omega)]
      exact reads turns (by omega)
    | sync syncId =>
      simp [WalEntry.bytes, read, minRecordSize, index, slice, bind_ok, ofLe_toLe fits] at enough ⊢
      rw [if_neg (by omega)]
      exact reads turns (by omega)

end WalScan

namespace WalBuf

open WalScan

variable {pod} {buf : WalBuf} {log : List UInt8} {entries later : List (WalEntry V)} {entry : WalEntry V}

def written (buf : WalBuf) : List UInt8 := buf.log ++ buf.recordBuf

theorem flush_holds (holds : Holds pod buf.written entries) : Holds pod buf.flush.written entries := by
  have filled := holds.append (holds_zeros ((blockSize - buf.recordBuf.length % blockSize) % blockSize))
  rw [append_nil, written, append_assoc] at filled
  rwa [written, flush, append_nil]

theorem append_holds (holds : Holds pod buf.written entries) (fits : entry.Fits) :
    Holds pod (buf.append pod entry).written (entries ++ [entry]) := by
  have added := holds.append (holds_entry fits)
  rw [written, append_assoc] at added
  unfold append
  cases entry with
  | sync => exact added
  | record =>
    dsimp only
    split
    · exact added
    · exact flush_holds added

theorem appendAll_holds (holds : Holds pod buf.written entries) (fit : ∀ entry ∈ later, entry.Fits) :
    Holds pod (later.foldl (append pod) buf).written (entries ++ later) := by
  induction later generalizing buf entries with
  | nil => rwa [append_nil]
  | cons entry later ih =>
    obtain ⟨fits, rest⟩ := forall_mem_cons.mp fit
    rw [← singleton_append, ← append_assoc]
    exact ih (append_holds holds fits) rest

theorem writeTx_holds (holds : Holds pod log entries) (fit : ∀ entry ∈ later, entry.Fits) :
    Holds pod (writeTx pod log later) (entries ++ later) := by
  have opened : Holds pod (WalBuf.mk log []).written entries := by rwa [written, append_nil]
  have flushed := flush_holds (appendAll_holds opened fit)
  rwa [written, flush, append_nil] at flushed

theorem writeTxs_holds {txs : List (List (WalEntry V))} (fit : ∀ entry ∈ txs.flatten, entry.Fits) :
    Holds pod (txs.foldl (writeTx pod) []) txs.flatten := by
  induction txs using reverseRecOn with
  | nil => exact holds_zeros 0
  | append_singleton txs tx ih =>
    rw [flatten_append, flatten_singleton] at fit ⊢
    obtain ⟨early, last⟩ := forall_mem_append.mp fit
    rw [foldl_append]
    exact writeTx_holds (ih early) last

end WalBuf

/-- Recovery from the bytes of a WAL that TXs wrote gives what recovery from their entries gives. -/
theorem WalAppendTx.collectFromBytes_eq {txs : List (List (WalEntry V))} (written : txs.flatten ≠ [])
    (fit : ∀ entry ∈ txs.flatten, entry.Fits) :
    collectFromBytes pod (txs.foldl (WalBuf.writeTx pod) []) = .ok (collectSyncedRecordsAndSyncId txs.flatten) := by
  have holds : WalScan.Holds pod _ _ := WalBuf.writeTxs_holds fit
  have reads := holds.2 [] .new _ (fun turns enough => by
    cases turns with
    | zero => cases enough
    | succ => rw [WalScan.read, if_pos (by decide)]) _ (Nat.lt_succ_self _)
  rw [append_nil] at reads
  have large : minRecordSize ≤ (txs.foldl (WalBuf.writeTx pod) []).length :=
    Nat.le_trans (Nat.le_mul_of_pos_right _ (length_pos_of_ne_nil written)) holds.1
  rw [collectFromBytes, sub_ok large, bind_ok, reads, bind_ok]
  rfl

def bytePod : Pod UInt8 := ⟨1, fun byte => [byte], fun bytes => bytes.headD 0, fun _ => rfl, fun _ => rfl⟩

theorem collectFromBytes_synced : WalAppendTx.collectFromBytes bytePod
    ([[.sync 0, .record 5 7, .sync 1], [.sync 1, .record 6 8]].foldl (WalBuf.writeTx bytePod) []) =
      .ok ([(5, 7)], 1) :=
  WalAppendTx.collectFromBytes_eq bytePod (by decide) (by simp [WalEntry.Fits])

end Kei.SecureDisk
