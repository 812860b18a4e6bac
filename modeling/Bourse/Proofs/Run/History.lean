import Bourse.Proofs.Engine.Numbered
import Bourse.Proofs.Run.Basic

/-!
# The numbers of a history

Under a rule of any kind calls may stop at faults at any time. Little is certain then of
the books, but the numbers of the events are: every turn is `Turn.Numbered`. A turn that
sends events sends them under the next numbers, and a turn that stops at a fault sends
none and at most loses some numbers. So over a whole `History` the numbers of what is
`delivered` increase, and where no call has stopped at a fault they are 1, 2, 3 and so on
(`numbers_eq`).
-/

namespace Bourse

/-- All events that have been delivered, oldest first. -/
def delivered (past : List Turn) : List Event := past.reverse.flatMap Turn.events

@[simp] theorem delivered_nil : delivered [] = [] := rfl

@[simp] theorem delivered_cons (t : Turn) (past : List Turn) :
    delivered (t :: past) = delivered past ++ t.events := by
  simp [delivered]

theorem delivered_append (later earlier : List Turn) :
    delivered (later ++ earlier) = delivered earlier ++ delivered later := by
  simp [delivered]

theorem mem_delivered {past : List Turn} {ev : Event} :
    ev ∈ delivered past ↔ ∃ t ∈ past, ev ∈ t.events := by
  simp [delivered]

/-- The turn has taken the number for an event. -/
def Turn.Takes (t : Turn) (n : Nat) : Prop :=
  t.before.counters.events < n ∧ n ≤ t.after.counters.events

/-- The events of a turn have the numbers it `Takes`. If it was stopped by a fault there are none.
-/
structure Turn.Numbered (t : Turn) : Prop where
  numbers_eq : t.events.map Event.sequence =
    List.range' (t.before.counters.events + 1) t.events.length
  events_le : t.before.counters.events + t.events.length ≤ t.after.counters.events
  answered : t.answer.fault? = none →
    t.after.counters.events = t.before.counters.events + t.events.length
  stopped : t.answer.fault? ≠ none → t.events = []

namespace Turn.Numbered

variable {t : Turn}

theorem increasing (h : t.Numbered) : t.events.Pairwise fun a b => a.sequence < b.sequence := by
  rw [← List.pairwise_map, h.numbers_eq]
  exact List.pairwise_lt_range'

theorem takes (h : t.Numbered) {ev : Event} (hev : ev ∈ t.events) : t.Takes ev.sequence := by
  have hmem : ev.sequence ∈ t.events.map Event.sequence := List.mem_map_of_mem hev
  have hle := h.events_le
  rw [h.numbers_eq, List.mem_range'_1] at hmem
  constructor <;> omega

end Turn.Numbered

/-- A turn is `Numbered` as the reply is that it has come to, if it stops where the reply does. -/
theorem Engine.Numbered.turn {α : Type} {t : Turn} {r : Reply Fault α} (h : Numbered t.before r)
    (hevents : t.events = r.events) (hengine : t.after = r.engine)
    (hok : t.answer.fault? = none → ∃ a, r.answer = .ok a)
    (hstopped : t.answer.fault? ≠ none → ∃ f, r.answer = .error f) : t.Numbered := by
  refine ⟨?_, ?_, fun hnone => ?_, fun hsome => ?_⟩
  · rw [hevents]
    exact h.numbers_eq
  · rw [hevents, hengine]
    exact h.events_le
  · obtain ⟨a, ha⟩ := hok hnone
    rw [hevents, hengine]
    exact h.answered a ha
  · obtain ⟨f, ha⟩ := hstopped hsome
    rw [hevents]
    exact h.stopped f ha

/-- `perform` numbers the events of a call of whatever kind, on whatever engine, in no other way. -/
theorem Engine.perform_numbered (e : Engine) (call : Call) : (e.perform call).Numbered := by
  cases call with
  | addInstrument config =>
      obtain ⟨-, -, hc, -⟩ := addInstrument_keeps e config
      have h := addInstrument_numbered e config
      refine ⟨h.numbers_eq, h.events_le, fun _ => ?_, fun _ => addInstrument_events e config⟩
      show (e.addInstrument config).engine.counters.events =
        e.counters.events + (e.addInstrument config).events.length
      rw [hc, addInstrument_events]
      rfl
  | submit world intent => exact (submit_numbered e world intent).turn rfl rfl answered stopped
  | cancel world id => exact (cancel_numbered e world id).turn rfl rfl answered stopped
  | modify world id request =>
      exact (modify_numbered e world id request).turn rfl rfl answered stopped

namespace History

variable {rule : MatchingRule} {past : List Turn} {e : Engine}

theorem numbered (h : History rule past e) {t : Turn} (ht : t ∈ past) : t.Numbered := by
  induction h with
  | start => cases ht
  | @turn past e call _ ih =>
      rcases List.mem_cons.mp ht with rfl | ht
      · exact e.perform_numbered call
      · exact ih ht

/-- The counter of events never goes back. -/
theorem events_le (h : History rule past e) {t : Turn} (ht : t ∈ past) :
    t.after.counters.events ≤ e.counters.events := by
  induction h with
  | start => cases ht
  | @turn past e call _ ih =>
      rcases List.mem_cons.mp ht with rfl | ht
      · exact Nat.le_refl _
      · have hle := (e.perform_numbered call).events_le
        have hpast := ih ht
        rw [before_perform] at hle
        omega

/-- What one turn has taken, no later one takes. -/
theorem not_takes (h : History rule past e) (call : Call) {t : Turn} (ht : t ∈ past) {n : Nat}
    (hn : t.Takes n) : ¬ (e.perform call).Takes n := by
  intro hagain
  have hle := h.events_le ht
  have hfirst := hn.2
  have hlater := hagain.1
  rw [before_perform] at hlater
  omega

/-- No number is taken twice. -/
theorem takes_once (h : History rule past e) {t u : Turn} {n : Nat} (ht : t ∈ past)
    (hu : u ∈ past) (hn : t.Takes n) (hn' : u.Takes n) : t = u := by
  induction h with
  | start => cases ht
  | @turn past e call h ih =>
      rcases List.mem_cons.mp ht with rfl | ht
      · rcases List.mem_cons.mp hu with rfl | hu
        · rfl
        · exact absurd hn (h.not_takes call hu hn')
      · rcases List.mem_cons.mp hu with rfl | hu
        · exact absurd hn' (h.not_takes call ht hn)
        · exact ih ht hu

/-- Nothing that is `delivered` has a number that was taken by a turn which was stopped. -/
theorem lost (h : History rule past e) {t : Turn} (ht : t ∈ past)
    (hf : t.answer.fault? ≠ none) {ev : Event} (hev : ev ∈ delivered past) :
    ¬ t.Takes ev.sequence := by
  intro htakes
  obtain ⟨u, hu, hsent⟩ := mem_delivered.mp hev
  have heq := h.takes_once ht hu htakes ((h.numbered hu).takes hsent)
  rw [← heq, (h.numbered ht).stopped hf] at hsent
  cases hsent

/-- What is `delivered` has increasing numbers, and none that the counter has not reached. -/
theorem increasing (h : History rule past e) :
    (delivered past).Pairwise (fun a b => a.sequence < b.sequence) ∧
      ∀ ev ∈ delivered past, ev.sequence ≤ e.counters.events := by
  induction h with
  | start => exact ⟨List.Pairwise.nil, fun ev hev => by cases hev⟩
  | @turn past e call _ ih =>
      obtain ⟨hpast, hle⟩ := ih
      have hturn := e.perform_numbered call
      have hmore := hturn.events_le
      have htakes {ev : Event} (hev : ev ∈ (e.perform call).events) :
          e.counters.events < ev.sequence ∧
            ev.sequence ≤ (e.perform call).after.counters.events := by
        have := hturn.takes hev
        unfold Turn.Takes at this
        rwa [before_perform] at this
      rw [before_perform] at hmore
      simp only [delivered_cons, List.pairwise_append, List.mem_append]
      refine ⟨⟨hpast, hturn.increasing, fun a ha b hb => ?_⟩, fun ev hev => ?_⟩
      · exact Nat.lt_of_le_of_lt (hle a ha) (htakes hb).1
      · rcases hev with hev | hev
        · have := hle ev hev
          omega
        · exact (htakes hev).2

/-- In a `Faultless` history nothing is left out. -/
theorem numbers_eq (h : History rule past e) (hok : Faultless past) :
    (delivered past).map Event.sequence = List.range' 1 (delivered past).length ∧
      e.counters.events = (delivered past).length := by
  induction h with
  | start => exact ⟨rfl, rfl⟩
  | @turn past e call _ ih =>
      obtain ⟨hpast, hcount⟩ := ih fun t ht => hok t (List.mem_cons_of_mem _ ht)
      have hturn := e.perform_numbered call
      have hnumbers := hturn.numbers_eq
      have hnext := hturn.answered (hok _ List.mem_cons_self)
      rw [before_perform] at hnumbers hnext
      rw [delivered_cons, List.map_append, hpast, hnumbers, List.length_append, hcount]
      refine ⟨?_, by rw [hnext, hcount]⟩
      rw [Nat.add_comm (delivered past).length 1, List.range'_append_1]

end History

end Bourse
