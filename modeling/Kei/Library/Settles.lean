import Kei.Library.Checked

/-! Computations that panic exactly when a condition fails. -/

namespace Library.Checked

variable {α β : Type}

/-- The computation returns under the condition, with a result that satisfies `post`, and
panics otherwise. -/
abbrev Settles (condition : Prop) (computation : Checked α) (post : α → Prop) : Prop :=
  Meets (fun _ => ¬condition) computation fun value => condition ∧ post value

variable {condition other : Prop} {computation : Checked α} {post : α → Prop} {value : α}

theorem Settles.ok (holds : post value) : Settles True (.ok value) post := ⟨trivial, holds⟩

variable {next : α → Checked β} {mid : α → Prop}

theorem Settles.bind {post : β → Prop}
    (one : Settles condition computation mid) (other : Prop)
    (rest : ∀ value, condition → mid value → Settles other (next value) post) :
    Settles (condition ∧ other) (computation >>= next) post := by
  refine Meets.bind (one.weaken fun _ fails both => fails both.1) fun value met => ?_
  refine Meets.mono ((rest value met.1 met.2).weaken fun _ fails both => fails both.2) fun result found => ?_
  exact ⟨⟨met.1, found.1⟩, found.2⟩

theorem Settles.bind_eq {result : α} {post : β → Prop}
    (one : Settles condition computation fun value => value = result) (rest : Settles other (next result) post) :
    Settles (condition ∧ other) (computation >>= next) post :=
  one.bind other fun _ _ same => same ▸ rest

theorem Settles.mono (settles : Settles condition computation post) (same : condition ↔ other)
    {weaker : α → Prop} (weaken : ∀ value, condition → post value → weaker value) :
    Settles other computation weaker :=
  Meets.mono (settles.weaken fun _ => mt same.mpr) fun value met => ⟨same.mp met.1, weaken value met.1 met.2⟩

theorem Settles.congr (settles : Settles condition computation post) (same : condition ↔ other) :
    Settles other computation post :=
  settles.mono same fun _ _ holds => holds

theorem Settles.returning {post : β → Prop}
    (one : Settles condition computation mid)
    (rest : ∀ value, condition → mid value → ∃ result, next value = .ok result ∧ post result) :
    Settles condition (computation >>= next) post := by
  refine Meets.bind one fun value met => ?_
  obtain ⟨result, ran, holds⟩ := rest value met.1 met.2
  rw [ran]
  exact ⟨met.1, holds⟩

theorem Settles.map {next : α → β} {post : β → Prop}
    (one : Settles condition computation mid) (holds : ∀ value, condition → mid value → post (next value)) :
    Settles condition (computation >>= fun value => pure (next value)) post :=
  one.returning fun value met found => ⟨next value, rfl, holds value met found⟩

theorem Settles.returns (settles : Settles condition computation post) (holds : condition) :
    Returns computation post :=
  Meets.mono (settles.weaken fun _ fails => fails holds) fun _ met => met.2

theorem Settles.exists_ok (settles : Settles condition computation post) (holds : condition) :
    ∃ value, computation = .ok value ∧ post value :=
  Meets.exists_ok (settles.returns holds)

theorem Settles.exists_iff (settles : Settles condition computation post) :
    (∃ value, computation = .ok value) ↔ condition :=
  ⟨fun ⟨_, ran⟩ => (settles.of_ok ran).1, fun holds => (settles.exists_ok holds).imp fun _ met => met.1⟩

theorem Settles.meets {tolerated : Panic → Prop} (settles : Settles condition computation post)
    (panics : Meets tolerated computation fun _ => True) :
    Meets tolerated computation fun value => condition ∧ post value := by
  cases computation with
  | error panic => exact panics
  | ok value => exact settles

theorem settles_ite {decision : Prop} [Decidable decision] {panic : Panic} (holds : post value) :
    Settles decision (if decision then .ok value else .error panic) post := by
  by_cases decided : decision
  · rw [if_pos decided]
    exact ⟨decided, holds⟩
  · rw [if_neg decided]
    exact decided

theorem assert_settles (holds : Bool) : Settles (holds = true) (assert holds) fun _ => True :=
  settles_ite trivial

theorem add_settles (largest left right : Nat) :
    Settles (left + right ≤ largest) (add largest left right) fun total => total = left + right :=
  settles_ite rfl

theorem mul_settles (largest left right : Nat) :
    Settles (left * right ≤ largest) (mul largest left right) fun product => product = left * right :=
  settles_ite rfl

theorem index_settles (values : List α) (position : Nat) :
    Settles (position < values.length) (index values position) fun value => values[position]? = some value := by
  unfold index
  cases found : values[position]? with
  | none => exact Nat.not_lt.mpr (List.getElem?_eq_none_iff.mp found)
  | some value => exact ⟨(List.getElem?_eq_some_iff.mp found).1, rfl⟩

end Library.Checked
