import Kei.Library.SortedMap
import Mathlib.Algebra.BigOperators.Group.List.Basic
import Mathlib.Data.List.Nodup

/-! Totals over ordered maps: what all entries weigh together, and how one entry that comes or
goes changes it. -/

namespace Library.SortedMap

open List

variable {κ ν M : Type} [LinearOrder κ] [AddCommMonoid M]

def total (weight : κ × ν → M) (map : SortedMap κ ν) : M := (map.entries.map weight).sum

theorem entries_nodup (map : SortedMap κ ν) : map.entries.Nodup := map.ascending.keys_nodup.of_map _

theorem not_mem_remove (map : SortedMap κ ν) (key : κ) (value : ν) :
    (key, value) ∉ (map.remove key).entries := fun member => (mem_remove.mp member).2 rfl

theorem insert_perm (map : SortedMap κ ν) (key : κ) (value : ν) :
    (map.insert key value).entries.Perm ((key, value) :: (map.remove key).entries) := by
  have distinct : ((key, value) :: (map.remove key).entries).Nodup :=
    nodup_cons.mpr ⟨map.not_mem_remove key value, entries_nodup _⟩
  refine (perm_ext_iff_of_nodup (entries_nodup _) distinct).mpr ?_
  intro entry
  rw [mem_insert, mem_cons, mem_remove]

variable {map : SortedMap κ ν} {key : κ}

theorem remove_perm {value : ν} (held : (key, value) ∈ map.entries) :
    map.entries.Perm ((key, value) :: (map.remove key).entries) := by
  have distinct : ((key, value) :: (map.remove key).entries).Nodup :=
    nodup_cons.mpr ⟨map.not_mem_remove key value, entries_nodup _⟩
  refine (perm_ext_iff_of_nodup (entries_nodup _) distinct).mpr ?_
  rintro ⟨other, stored⟩
  rw [mem_cons, mem_remove]
  constructor
  · intro member
    by_cases same : other = key
    · subst same
      have equal : some value = some stored := by rw [← get_eq_some.mpr held, get_eq_some.mpr member]
      exact .inl (by rw [Option.some.inj equal])
    · exact .inr ⟨member, same⟩
  · rintro (same | ⟨member, -⟩)
    · exact same ▸ held
    · exact member

theorem total_insert (weight : κ × ν → M) (map : SortedMap κ ν) (key : κ) (value : ν) :
    (map.insert key value).total weight = weight (key, value) + (map.remove key).total weight := by
  rw [total, ((map.insert_perm key value).map weight).sum_eq, map_cons, sum_cons, total]

theorem total_of_mem (weight : κ × ν → M) {value : ν}
    (held : (key, value) ∈ map.entries) :
    map.total weight = weight (key, value) + (map.remove key).total weight := by
  rw [total, ((remove_perm held).map weight).sum_eq, map_cons, sum_cons, total]

theorem remove_of_absent (absent : map.get key = none) :
    (map.remove key).entries = map.entries := by
  refine filter_eq_self.mpr ?_
  rintro ⟨other, stored⟩ member
  rw [bne_iff_ne]
  rintro rfl
  rw [get_eq_some.mpr member] at absent
  exact nomatch absent

theorem total_insert_of_absent (weight : κ × ν → M)
    (absent : map.get key = none) (value : ν) :
    (map.insert key value).total weight = weight (key, value) + map.total weight := by
  rw [total_insert, total, total, remove_of_absent absent]

end Library.SortedMap
