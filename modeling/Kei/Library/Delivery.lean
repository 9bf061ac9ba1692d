import Kei.Library.Stream

/-! Messages over a lossless channel. The receiver is a machine that stays quiet inside
an encoding and answers at its end; `Pending` says which messages are still on their
way when some of the bytes of the first one are already inside the machine. -/

namespace Library

open List

variable {σ α β μ : Type}

structure Framing (step : σ → α → Checked (β × σ)) (start : σ) (quiet : β) (encode : μ → List α)
    (answer : μ → β) : Prop where
  fed : ∀ message, ∃ silent, feed step start (encode message) =
    .ok (List.replicate silent quiet ++ [answer message], start)
  loud : ∀ message, answer message ≠ quiet

def Pending (step : σ → α → Checked (β × σ)) (start : σ) (quiet : β) (encode : μ → List α)
    (waiting : List μ) (symbols : List α) (state : σ) : Prop :=
  ∃ consumed, waiting.flatMap encode = consumed ++ symbols ∧
    feed step start consumed = .ok (List.replicate consumed.length quiet, state)

variable {step : σ → α → Checked (β × σ)} {start : σ} {quiet : β} {encode : μ → List α}
  {answer : μ → β}

theorem Pending.initial : Pending step start quiet encode [] [] start := ⟨[], rfl, rfl⟩

variable {waiting : List μ} {state : σ}

theorem Pending.send {symbols : List α}
    (pending : Pending step start quiet encode waiting symbols state) (message : μ) :
    Pending step start quiet encode (waiting ++ [message]) (symbols ++ encode message) state := by
  obtain ⟨consumed, cut, fed⟩ := pending
  refine ⟨consumed, ?_, fed⟩
  rw [flatMap_append, cut, flatMap_singleton, append_assoc]

variable (framing : Framing step start quiet encode answer)
include framing

theorem Framing.incomplete {message : μ} {more : List α} {count : Nat} :
    feed step start (encode message ++ more) ≠ .ok (List.replicate count quiet, state) := by
  intro fed
  obtain ⟨silent, whole⟩ := framing.fed message
  obtain ⟨first, second, middle, cut, fedFirst, _⟩ := feed_append_split fed
  rw [whole, Except.ok.injEq, Prod.mk.injEq] at fedFirst
  obtain ⟨rfl, rfl⟩ := fedFirst
  have member : answer message ∈ List.replicate count quiet := by simp [cut]
  exact framing.loud message (eq_of_mem_replicate member)

theorem Pending.drained (pending : Pending step start quiet encode waiting [] state) :
    waiting = [] ∧ state = start := by
  obtain ⟨consumed, cut, fed⟩ := pending
  rw [append_nil] at cut
  subst cut
  cases waiting with
  | nil =>
    simp only [flatMap_nil, feed_nil, Except.ok.injEq, Prod.mk.injEq] at fed
    exact ⟨rfl, fed.2.symm⟩
  | cons message later => exact absurd fed framing.incomplete

theorem Pending.advance {symbol : α} {rest : List α}
    (pending : Pending step start quiet encode waiting (symbol :: rest) state) :
    ∃ reply next, step state symbol = .ok (reply, next) ∧
      (reply = quiet ∧ Pending step start quiet encode waiting rest next ∨
        ∃ message later, waiting = message :: later ∧ reply = answer message ∧
          Pending step start quiet encode later rest next) := by
  obtain ⟨consumed, cut, fed⟩ := pending
  cases waiting with
  | nil => simp at cut
  | cons message later =>
    obtain ⟨silent, whole⟩ := framing.fed message
    rw [flatMap_cons] at cut
    rcases append_eq_append_iff.mp cut with ⟨more, rfl, _⟩ | ⟨left, split, remains⟩
    · exact absurd fed framing.incomplete
    · cases left with
      | nil =>
        rw [append_nil] at split
        rw [← split, ← append_nil (encode message)] at fed
        exact absurd fed framing.incomplete
      | cons head tail =>
        rw [cons_append, List.cons.injEq] at remains
        obtain ⟨rfl, rfl⟩ := remains
        rw [split] at whole
        obtain ⟨first, second, middle, answers, fedFirst, fedSecond⟩ := feed_append_split whole
        rw [fed, Except.ok.injEq, Prod.mk.injEq] at fedFirst
        obtain ⟨rfl, rfl⟩ := fedFirst
        obtain ⟨reply, next, replies, rfl, stepped, fedTail⟩ := feed_cons_split fedSecond
        refine ⟨reply, next, stepped, ?_⟩
        cases tail with
        | nil =>
          simp only [feed_nil, Except.ok.injEq, Prod.mk.injEq] at fedTail
          obtain ⟨rfl, rfl⟩ := fedTail
          have last := (append_inj' answers (by simp)).2
          rw [List.cons.injEq] at last
          exact Or.inr ⟨message, later, rfl, last.1.symm, [], rfl, rfl⟩
        | cons following others =>
          have more : replies ≠ [] := ne_nil_of_length_pos (by simp [feed_length fedTail])
          rw [← dropLast_append_getLast more, ← cons_append, ← append_assoc] at answers
          have earlier := (append_inj' answers (by simp)).1
          have hushed : reply = quiet := eq_of_mem_replicate (n := silent) (by simp [earlier])
          subst hushed
          refine Or.inl ⟨rfl, consumed ++ [symbol], ?_, ?_⟩
          · simp [split]
          · have joined := feed_append fed (feed_cons stepped (feed_nil next))
            rw [length_append, length_singleton, replicate_succ']
            exact joined

end Library
