import Kei.Ext2.XattrLayout
import Mathlib.Algebra.Order.BigOperators.Group.List
import Mathlib.Algebra.Order.Ring.Nat

/-! Runs of operations on the attributes of an inode against a map from names to values. -/

namespace Kei.Ext2

open Library List Nat XattrCache

namespace XattrCache

theorem findFrom_cases {entries : List XattrEntryData} (sorted : Ascending entries) (key : XattrKey) (base : Nat) :
    (∃ position value, findFrom key entries base = (some (base + position), base + position) ∧
      entries[position]? = some (key, value) ∧
      (∀ other, entries.set position (key, other) = insertEntry key other entries) ∧
      entries.eraseIdx position = entries.filter fun entry => entry.1 != key) ∨
    ∃ position, findFrom key entries base = (none, base + position) ∧
      (∀ other, entries.insertIdx position (key, other) = insertEntry key other entries) ∧
      ∀ value, (key, value) ∉ entries := by
  induction entries generalizing base with
  | nil => exact .inr ⟨0, rfl, fun _ => rfl, fun _ member => nomatch member⟩
  | cons entry rest ih =>
    obtain ⟨first, stored⟩ := entry
    rw [Ascending, pairwise_cons] at sorted
    obtain ⟨above, sorted⟩ := sorted
    unfold findFrom
    rcases lt_trichotomy first key with lower | rfl | higher
    · rw [XattrKey.cmpEntryKey_eq_lt.mpr lower]
      have before : ¬key < first := not_lt_of_gt lower
      have different : key ≠ first := ne_of_gt lower
      rcases ih sorted (base + 1) with
        ⟨position, value, found, here, set, erase⟩ | ⟨position, found, insert, absent⟩
      · refine .inl ⟨position + 1, value, ?_, here, ?_, ?_⟩
        · rw [found, add_right_comm, add_assoc]
        · intro other
          rw [set_cons_succ, set, insertEntry, if_neg before, if_neg different]
        · rw [eraseIdx_cons_succ, erase, filter_cons_of_pos (by simpa using Ne.symm different)]
      · refine .inr ⟨position + 1, ?_, ?_, ?_⟩
        · rw [found, add_right_comm, add_assoc]
        · intro other
          rw [insertIdx_succ_cons, insert, insertEntry, if_neg before, if_neg different]
        · intro value member
          rcases mem_cons.mp member with same | later
          · exact different (congrArg Prod.fst same)
          · exact absent value later
    · rw [XattrKey.cmpEntryKey_eq_eq.mpr rfl]
      refine .inl ⟨0, stored, rfl, rfl, ?_, ?_⟩
      · intro other
        rw [set_cons_zero, insertEntry, if_neg (lt_irrefl _), if_pos rfl]
      · rw [eraseIdx_cons_zero, filter_cons_of_neg (by simp)]
        refine (filter_eq_self.mpr ?_).symm
        intro other member
        exact bne_iff_ne.mpr (ne_of_gt (above other member))
    · have greater : cmpEntryKey first key = .gt := by
        cases order : cmpEntryKey first key with
        | lt => exact absurd (XattrKey.cmpEntryKey_eq_lt.mp order) (not_lt_of_gt higher)
        | eq => exact absurd (XattrKey.cmpEntryKey_eq_eq.mp order) (ne_of_gt higher)
        | gt => rfl
      rw [greater]
      refine .inr ⟨0, rfl, ?_, ?_⟩
      · intro other
        rw [insertIdx_zero, insertEntry, if_pos higher]
      · intro value member
        rcases mem_cons.mp member with same | later
        · exact ne_of_lt higher (congrArg Prod.fst same)
        · exact lt_asymm higher (above _ later)

end XattrCache

def expectedGet (map : SortedMap XattrKey (List UInt8)) (name : XattrName) (avail : Nat) :
    Except Error (Nat × List UInt8) := do
  let key ← parseTargetName name
  match map.get key with
  | none => .error ⟨.enodata, "the target xattr does not exist"⟩
  | some value =>
    if avail = 0 then return (value.length, [])
    else if value.length > avail then .error ⟨.erange, "the xattr value buffer is too small"⟩
    else return (value.length, value)

def expectedList (map : SortedMap XattrKey (List UInt8)) (namespace_ : XattrNamespace) (bufferSize : Nat) :
    Except Error (Nat × List UInt8) :=
  let names := (map.entries.filter (visible namespace_)).flatMap listed
  if bufferSize = 0 then .ok (names.length, [])
  else if names.length > bufferSize then .error ⟨.erange, "the xattr list buffer is too small"⟩
  else .ok (names.length, names)

def afterSet (map : SortedMap XattrKey (List UInt8)) (name : XattrName) (value : List UInt8) :
    Except Error Unit → SortedMap XattrKey (List UInt8)
  | .error _ => map
  | .ok () =>
    match parseTargetName name with
    | .ok key => map.insert key value
    | .error _ => map

def afterRemove (map : SortedMap XattrKey (List UInt8)) (name : XattrName) :
    Except Error Unit → SortedMap XattrKey (List UInt8)
  | .error _ => map
  | .ok () =>
    match parseTargetName name with
    | .ok key => map.remove key
    | .error _ => map

/-- A set that is not refused for its name, its size or its flags finds a block if the inode has
none, and leaves attributes that fit the block together with a whole terminating entry. -/
def Room (inode : Inode) (map : SortedMap XattrKey (List UInt8)) (name : XattrName) (value : List UInt8)
    (flags : XattrSetFlags) (found : Except Error BlockNo) : Prop :=
  ∀ key, parseTargetName name = .ok key → value.length ≤ blockSize →
    (if (map.get key).isSome then flags.createOnly = false else flags.replaceOnly = false) →
    (inode.xattr.bid = 0 → ∃ bid, found = .ok bid) ∧ Fits (map.insert key value).entries

/-- The operations on a new inode's attributes, with the map of the values whose operations
returned success. -/
inductive History (device : Device) : Inode → SortedMap XattrKey (List UInt8) → Prop
  | new : History device (Inode.new device) .empty
  | set {inode map name value flags found} : History device inode map →
      Room inode map name value flags found →
      History device (inode.setXattr name value flags found).2
        (afterSet map name value (inode.setXattr name value flags found).1)
  | remove {inode map name} : History device inode map →
      History device (inode.removeXattr name).2 (afterRemove map name (inode.removeXattr name).1)
  | get {inode map name avail} : History device inode map → History device (inode.getXattr name avail).2 map
  | list {inode map namespace_ bufferSize} : History device inode map →
      History device (inode.listXattr namespace_ bufferSize).2 map
  | flush {inode map} : History device inode map → History device inode.flush.2 map
  | evict {inode map} : History device inode map → History device inode.evictAndReload.2 map

structure Loaded (cache : XattrCache) (device : Device) (map : SortedMap XattrKey (List UInt8)) : Prop where
  entries : cache.entries = map.entries
  names : ShortNames map.entries
  fits : Fits map.entries
  block : cache.bid = 0 → cache = .new 0
  buffer : cache.bid ≠ 0 → cache.blockBuf.isSome
  clean : cache.bid ≠ 0 → cache.dirty = false → Holds (device cache.bid) map.entries

structure Stored (cache : XattrCache) (device : Device) (map : SortedMap XattrKey (List UInt8)) : Prop where
  handle : cache = .new cache.bid
  names : ShortNames map.entries
  fits : Fits map.entries
  block : cache.bid ≠ 0
  holds : Holds (device cache.bid) map.entries

structure Represents (inode : Inode) (map : SortedMap XattrKey (List UInt8)) : Prop where
  fileAcl : inode.fileAcl = inode.xattr.bid
  cache : Loaded inode.xattr inode.device map ∨ Stored inode.xattr inode.device map

section Cache

variable {cache : XattrCache} {device : Device} {map : SortedMap XattrKey (List UInt8)} {key : XattrKey}

theorem Loaded.load (loaded : Loaded cache device map) : cache.load device = .ok cache := by
  unfold XattrCache.load
  by_cases none : cache.bid = 0
  · rw [if_pos none, ite_self]
  · rw [if_pos (loaded.buffer none)]

theorem load_ok (known : Loaded cache device map ∨ Stored cache device map) :
    ∃ after, cache.load device = .ok after ∧ after.bid = cache.bid ∧ Loaded after device map := by
  rcases known with loaded | stored
  · exact ⟨cache, loaded.load, rfl, loaded⟩
  · have empty : cache.blockBuf = none := by rw [stored.handle]; rfl
    obtain ⟨valid, parsed⟩ := stored.holds
    refine ⟨{ cache with entries := map.entries, blockBuf := some (device cache.bid) }, ?_, rfl, ?_⟩
    · unfold load
      rw [empty, if_neg (by simp), if_neg stored.block]
      simp only [valid, parsed]
      rfl
    · exact ⟨rfl, stored.names, stored.fits, fun none => absurd none stored.block, fun _ => rfl,
        fun _ _ => stored.holds⟩

theorem Loaded.find (loaded : Loaded cache device map) (key : XattrKey) :
    (∃ position value, findEntryPosition cache.entries key = (some position, position) ∧
      map.get key = some value ∧ cache.entries[position]? = some (key, value) ∧
      (∀ other, cache.entries.set position (key, other) = (map.insert key other).entries) ∧
      cache.entries.eraseIdx position = (map.remove key).entries) ∨
    ∃ position, findEntryPosition cache.entries key = (none, position) ∧ map.get key = none ∧
      ∀ other, cache.entries.insertIdx position (key, other) = (map.insert key other).entries := by
  unfold findEntryPosition
  rw [loaded.entries]
  rcases findFrom_cases map.ascending key 0 with
    ⟨position, value, found, here, set, erase⟩ | ⟨position, found, insert, absent⟩
  · rw [zero_add] at found
    exact .inl ⟨position, value, found, SortedMap.get_eq_some.mpr (mem_of_getElem? here), here, set, erase⟩
  · rw [zero_add] at found
    exact .inr ⟨position, found, Ascending.lookup_eq_none.mpr absent, insert⟩

theorem shortNames_insert (names : ShortNames map.entries) (short : key.name.length ≤ 255) (value : List UInt8) :
    ShortNames (map.insert key value).entries := by
  intro entry member
  rcases SortedMap.mem_insert.mp member with rfl | ⟨old, -⟩
  · exact short
  · exact names entry old

theorem sum_filter_le {α : Type} (size : α → Nat) (keep : α → Bool) (items : List α) :
    ((items.filter keep).map size).sum ≤ (items.map size).sum :=
  (filter_sublist.map size).sum_le_sum fun _ _ => Nat.zero_le _

theorem fits_remove (fits : Fits map.entries) (key : XattrKey) : Fits (map.remove key).entries := by
  unfold Fits at fits ⊢
  have front := sum_filter_le (fun entry : XattrEntryData => xattrEntryLen entry.1.name.length)
    (fun entry => entry.1 != key) map.entries
  have back := sum_filter_le (fun entry : XattrEntryData => xattrValueSize entry.2.length)
    (fun entry => entry.1 != key) map.entries
  change entriesSize (map.remove key).entries ≤ entriesSize map.entries at front
  change valuesSize (map.remove key).entries ≤ valuesSize map.entries at back
  omega

theorem loaded_empty (device : Device) : Loaded (.new 0) device .empty where
  entries := rfl
  names := fun _ member => nomatch member
  fits := by decide
  block := fun _ => rfl
  buffer := fun block => absurd rfl block
  clean := fun block => absurd rfl block

theorem loaded_place (loaded : Loaded cache device map) (key : XattrKey) (value : List UInt8) :
    place cache.entries (findEntryPosition cache.entries key) key value =
      (map.insert key value).entries := by
  rcases loaded.find key with ⟨position, old, found, -, -, set, -⟩ | ⟨position, found, -, insert⟩
  · rw [found]
    exact set value
  · rw [found]
    exact insert value

theorem loaded_refusal (loaded : Loaded cache device map) (key : XattrKey) (flags : XattrSetFlags) :
    refusal (findEntryPosition cache.entries key).1 flags = none ↔
      if (map.get key).isSome then flags.createOnly = false else flags.replaceOnly = false := by
  rcases loaded.find key with ⟨position, old, found, held, -⟩ | ⟨position, found, missing, -⟩
  · rw [found, held]
    simp [refusal]
  · rw [found, missing]
    simp [refusal]

section

variable (known : Loaded cache device map ∨ Stored cache device map)
include known

theorem setEntry_cases (value : List UInt8) (flags : XattrSetFlags) (found : Except Error BlockNo)
    (short : key.name.length ≤ 255)
    (room : (if (map.get key).isSome then flags.createOnly = false else flags.replaceOnly = false) →
      (cache.bid = 0 → ∃ bid, found = .ok bid) ∧ Fits (map.insert key value).entries) :
    ∃ after, (∃ error, cache.setEntry device key value flags found = (.error error, after) ∧
        after.bid = cache.bid ∧ Loaded after device map) ∨
      cache.setEntry device key value flags found = (.ok (), after) ∧
        Loaded after device (map.insert key value) := by
  obtain ⟨cached, load, same, loaded⟩ := load_ok known
  unfold setEntry
  rw [load]
  dsimp only
  cases refused : refusal (findEntryPosition cached.entries key).1 flags with
  | some error => exact ⟨cached, .inl ⟨error, rfl, same, loaded⟩⟩
  | none =>
    obtain ⟨allocated, fits⟩ := room ((loaded_refusal loaded key flags).mp refused)
    have names := shortNames_insert loaded.names short value
    dsimp only
    rw [loaded_place loaded key value]
    by_cases block : cached.bid = 0
    · obtain ⟨bid, rfl⟩ := allocated (same.symm.trans block)
      rw [if_pos block]
      refine ⟨_, .inr ⟨rfl, rfl, names, fits, fun none => absurd none bid.2, fun _ => rfl, ?_⟩⟩
      intro _ clean
      cases clean
    · rw [if_neg block]
      refine ⟨_, .inr ⟨rfl, rfl, names, fits, fun none => absurd none block, fun _ => loaded.buffer block, ?_⟩⟩
      intro _ clean
      cases clean

theorem removeEntry_cases (key : XattrKey) :
    ∃ after, (∃ error, cache.removeEntry device key = (.error error, after) ∧
        after.bid = cache.bid ∧ Loaded after device map) ∨
      cache.removeEntry device key = (.ok (), after) ∧ Loaded after device (map.remove key) := by
  obtain ⟨cached, load, same, loaded⟩ := load_ok known
  unfold removeEntry
  rw [load]
  dsimp only
  rcases loaded.find key with ⟨position, old, found, held, here, -, erase⟩ | ⟨position, found, -, -⟩
  · rw [found]
    dsimp only
    rw [erase]
    by_cases empty : (map.remove key).entries.isEmpty
    · rw [if_pos empty]
      have nothing : map.remove key = .empty := by
        have entries := isEmpty_iff.mp empty
        cases rest : map.remove key
        rw [rest] at entries
        cases entries
        rfl
      refine ⟨_, .inr ⟨rfl, ?_⟩⟩
      rw [nothing]
      exact loaded_empty device
    · rw [if_neg empty]
      have block : cached.bid ≠ 0 := by
        intro none
        rw [loaded.block none] at here
        cases here
      refine ⟨_, .inr ⟨rfl, rfl, ?_, fits_remove loaded.fits key, fun none => absurd none block,
        fun _ => loaded.buffer block, ?_⟩⟩
      · intro entry member
        exact loaded.names entry (SortedMap.mem_remove.mp member).1
      · intro _ clean
        cases clean
  · rw [found]
    exact ⟨cached, .inl ⟨_, rfl, same, loaded⟩⟩

theorem getEntry_spec (key : XattrKey) (avail : Nat) :
    ∃ after, after.bid = cache.bid ∧ Loaded after device map ∧
      cache.getEntry device key avail = (match map.get key with
        | none => .error ⟨.enodata, "the target xattr does not exist"⟩
        | some value =>
          if avail = 0 then .ok (value.length, [])
          else if value.length > avail then .error ⟨.erange, "the xattr value buffer is too small"⟩
          else .ok (value.length, value), after) := by
  obtain ⟨cached, load, same, loaded⟩ := load_ok known
  refine ⟨cached, same, loaded, ?_⟩
  unfold getEntry
  rw [load]
  dsimp only
  rcases loaded.find key with ⟨position, value, found, held, here, -⟩ | ⟨position, found, missing, -⟩
  · rw [found, held, Option.bind_some, here]
    dsimp only
    split_ifs <;> rfl
  · rw [found, missing]
    rfl

end

theorem listFrom_spec (bufferSize : Nat) (entries : List XattrEntryData) (total remaining : Nat)
    (written : List UInt8) :
    listFrom bufferSize entries total remaining written = let names := entries.flatMap listed
      if bufferSize > 0 then
        if names.length > remaining then .error ⟨.erange, "the xattr list buffer is too small"⟩
        else .ok (total + names.length, remaining - names.length, written ++ names)
      else .ok (total + names.length, remaining, written) := by
  induction entries generalizing total remaining written with
  | nil => simp [listFrom]
  | cons entry rest ih =>
    unfold listFrom
    simp only [ih, flatMap_cons, length_append]
    split_ifs <;> grind

theorem listEntries_spec (known : Loaded cache device map ∨ Stored cache device map)
    (namespace_ : XattrNamespace) (bufferSize : Nat) :
    ∃ after, after.bid = cache.bid ∧ Loaded after device map ∧
      cache.listEntries device namespace_ bufferSize = (expectedList map namespace_ bufferSize, after) := by
  obtain ⟨cached, load, same, loaded⟩ := load_ok known
  refine ⟨cached, same, loaded, ?_⟩
  unfold listEntries expectedList
  rw [load]
  simp only [listFrom_spec, loaded.entries]
  split_ifs <;> grind

theorem flush_ok (known : Loaded cache device map ∨ Stored cache device map) :
    ∃ after written, cache.flush device = (.ok (), after, written) ∧ after.bid = cache.bid ∧
      (Loaded after written map ∨ Stored after written map) ∧
      if cache.bid = 0 then map = .empty else Holds (written cache.bid) map.entries := by
  unfold flush
  rcases known with loaded | stored
  · by_cases block : cache.bid = 0
    · have fresh := loaded.block block
      have nothing : map = .empty := by
        have entries := loaded.entries
        rw [fresh] at entries
        cases map
        cases entries
        rfl
      have clean : cache.dirty = false := by rw [fresh]; rfl
      rw [clean]
      refine ⟨cache, device, rfl, rfl, .inl loaded, ?_⟩
      rw [if_pos block]
      exact nothing
    · simp only [if_neg block]
      cases dirty : cache.dirty with
      | false => exact ⟨cache, device, rfl, rfl, .inl loaded, loaded.clean block dirty⟩
      | true =>
        obtain ⟨image, wrote, holds⟩ := writeEntriesToSegment_holds loaded.names map.ascending loaded.fits
        rw [loaded.entries, wrote]
        have placed : Holds (if cache.bid = cache.bid then image else device cache.bid) map.entries := by
          rw [if_pos rfl]
          exact holds
        refine ⟨_, _, rfl, rfl, .inl ⟨rfl, loaded.names, loaded.fits, fun none => absurd none block,
          fun _ => rfl, fun _ _ => placed⟩, placed⟩
  · have clean : cache.dirty = false := by rw [stored.handle]; rfl
    rw [clean]
    refine ⟨cache, device, rfl, rfl, .inr stored, ?_⟩
    rw [if_neg stored.block]
    exact stored.holds

end Cache

theorem parseTargetName_short {name : XattrName} {key : XattrKey} (parsed : parseTargetName name = .ok key) :
    key.name.length ≤ 255 := by
  unfold parseTargetName at parsed
  cases stripped : (XattrNameIndex.ofNamespace name.namespace_).stripPrefix name.fullName with
  | error error =>
    simp only [stripped] at parsed
    cases parsed
  | ok rest =>
    simp only [stripped, bind, Except.bind] at parsed
    split_ifs at parsed with long
    cases parsed
    exact Nat.le_of_not_lt long

namespace Represents

variable {inode : Inode} {map : SortedMap XattrKey (List UInt8)}

variable (known : Represents inode map)
include known

theorem set {name : XattrName} {value : List UInt8} {flags : XattrSetFlags} {found : Except Error BlockNo}
    (room : Room inode map name value flags found) :
    Represents (inode.setXattr name value flags found).2
      (afterSet map name value (inode.setXattr name value flags found).1) := by
  unfold Inode.setXattr
  cases parsed : parseTargetName name with
  | error error => exact known
  | ok key =>
    dsimp only
    by_cases large : value.length > blockSize
    · rw [if_pos large]
      exact known
    · rw [if_neg large]
      obtain ⟨after, ⟨error, result, same, loaded⟩ | ⟨result, loaded⟩⟩ :=
        setEntry_cases known.cache value flags
        found (parseTargetName_short parsed) (room key parsed (Nat.le_of_not_lt large))
      · rw [result]
        exact ⟨known.fileAcl.trans same.symm, .inl loaded⟩
      · rw [result]
        simp only [afterSet, parsed]
        exact ⟨rfl, .inl loaded⟩

theorem remove (name : XattrName) :
    Represents (inode.removeXattr name).2 (afterRemove map name (inode.removeXattr name).1) := by
  unfold Inode.removeXattr
  cases parsed : parseTargetName name with
  | error error => exact known
  | ok key =>
    obtain ⟨after, ⟨error, result, same, loaded⟩ | ⟨result, loaded⟩⟩ := removeEntry_cases known.cache key
    · simp only [result]
      exact ⟨known.fileAcl.trans same.symm, .inl loaded⟩
    · simp only [result, afterRemove, parsed]
      exact ⟨rfl, .inl loaded⟩

theorem get (name : XattrName) (avail : Nat) :
    (inode.getXattr name avail).1 = expectedGet map name avail ∧
      Represents (inode.getXattr name avail).2 map := by
  unfold Inode.getXattr expectedGet
  cases parsed : parseTargetName name with
  | error error => exact ⟨rfl, known⟩
  | ok key =>
    obtain ⟨after, same, loaded, result⟩ := getEntry_spec known.cache key avail
    simp only [result]
    exact ⟨rfl, known.fileAcl.trans same.symm, .inl loaded⟩

theorem list (namespace_ : XattrNamespace) (bufferSize : Nat) :
    (inode.listXattr namespace_ bufferSize).1 = expectedList map namespace_ bufferSize ∧
      Represents (inode.listXattr namespace_ bufferSize).2 map := by
  obtain ⟨after, same, loaded, result⟩ := listEntries_spec known.cache namespace_ bufferSize
  unfold Inode.listXattr
  simp only [result]
  exact ⟨trivial, known.fileAcl.trans same.symm, .inl loaded⟩

theorem flush : inode.flush.1 = .ok () ∧ Represents inode.flush.2 map := by
  obtain ⟨after, written, result, same, kept, -⟩ := flush_ok known.cache
  unfold Inode.flush
  simp only [result]
  exact ⟨trivial, known.fileAcl.trans same.symm, kept⟩

theorem evict : inode.evictAndReload.1 = .ok () ∧ Represents inode.evictAndReload.2 map := by
  obtain ⟨after, written, result, same, kept, held⟩ := flush_ok known.cache
  unfold Inode.evictAndReload Inode.flush
  simp only [result]
  refine ⟨trivial, rfl, ?_⟩
  rw [known.fileAcl]
  by_cases block : inode.xattr.bid = 0
  · rw [if_pos block] at held
    rw [held, block]
    exact .inl (loaded_empty _)
  · rw [if_neg block] at held
    have facts : ShortNames map.entries ∧ Fits map.entries :=
      kept.elim (fun loaded => ⟨loaded.names, loaded.fits⟩) fun stored => ⟨stored.names, stored.fits⟩
    exact .inr ⟨rfl, facts.1, facts.2, block, held⟩

end Represents

theorem History.represents {device : Device} {inode : Inode} {map : SortedMap XattrKey (List UInt8)}
    (history : History device inode map) : Represents inode map := by
  induction history with
  | new => exact ⟨rfl, .inl (loaded_empty device)⟩
  | set _ room ih => exact ih.set room
  | remove _ ih => exact ih.remove _
  | get _ ih => exact (ih.get _ _).2
  | list _ ih => exact (ih.list _ _).2
  | flush _ ih => exact ih.flush.2
  | evict _ ih => exact ih.evict.2

/-- Get and list return the values last set and not removed since, before and after any number of
flushes and reloads, and a flush always has room for them. -/
theorem Inode.attributes_round_trip {device : Device} {inode : Inode} {map : SortedMap XattrKey (List UInt8)}
    (history : History device inode map) :
    (∀ name avail, (inode.getXattr name avail).1 = expectedGet map name avail) ∧
    (∀ namespace_ bufferSize, (inode.listXattr namespace_ bufferSize).1 = expectedList map namespace_ bufferSize) ∧
    inode.flush.1 = .ok () ∧ inode.evictAndReload.1 = .ok () := by
  have known := history.represents
  exact ⟨fun name avail => (known.get name avail).1, fun namespace_ size => (known.list namespace_ size).1,
    known.flush.1, known.evict.1⟩

def sampleName : XattrName := ⟨.user, XattrNameIndex.user.prefixBytes ++ [97]⟩

def sampleSet (count : Nat) (found : Except Error BlockNo) : Except Error Unit × Inode :=
  (Inode.new fun _ => zeroBlock).setXattr sampleName (List.replicate count 1) ⟨false, false⟩ found

def full : Error := ⟨.enospc, "no free blocks on device"⟩

theorem Inode.attributes_round_trip_one :
    ((sampleSet 3 (.ok ⟨1, by decide⟩)).2.evictAndReload.2.getXattr sampleName 8).1 = .ok (3, [1, 1, 1]) := by
  have room : Room (Inode.new fun _ => zeroBlock) .empty sampleName (List.replicate 3 1) ⟨false, false⟩
      (.ok ⟨1, by decide⟩) := by
    rintro key ⟨⟩ - -
    exact ⟨fun _ => ⟨_, rfl⟩, by decide⟩
  exact (Inode.attributes_round_trip (History.evict (History.set .new room))).1 sampleName 8

/-- A value as large as a block is set and cannot be flushed. A set that finds no block fails and is
read back. The terminating entry goes over the first bytes of a value that ends at the entries. -/
theorem Inode.attributes_lost : ((sampleSet 4096 (.ok ⟨1, by decide⟩)).1 = .ok () ∧
      (sampleSet 4096 (.ok ⟨1, by decide⟩)).2.flush.1 =
        .error ⟨.enospc, "xattr entry/value regions overlap"⟩) ∧
    ((sampleSet 1 (.error full)).1 = .error full ∧
      ((sampleSet 1 (.error full)).2.getXattr sampleName 8).1 = .ok (1, [1])) ∧
    ((sampleSet 4040 (.ok ⟨1, by decide⟩)).1 = .ok () ∧
      (sampleSet 4040 (.ok ⟨1, by decide⟩)).2.evictAndReload.1 = .ok () ∧
      (((sampleSet 4040 (.ok ⟨1, by decide⟩)).2.evictAndReload.2.getXattr sampleName 4096).1.map
        fun result => result.2.head?) = .ok (some 0)) := by
  decide +kernel

end Kei.Ext2
