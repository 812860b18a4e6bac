import Bourse.Proofs.Engine.Calls

/-!
# What a call leaves that stops at a fault

Nothing is asked of the quantities here. Whatever has stopped `submit` or `cancel`, a book
that was left crossed included, no events are sent, and each order that rests afterwards
is `Filled` from one that rested before or from the one that was sent in. Those fills are
never told of.
-/

namespace Bourse

namespace Engine

variable {e : Engine} {i : Nat} {slot : Slot} {world : Surroundings} {id : OrderId} {f : Fault}
  {α : Type} {act : Attempt Desk α}

theorem exclusive_of_error (h : (e.exclusive i slot act).answer = .error f) :
    (e.exclusive i slot act).engine = e.leave i (Attempt.outcome act (e.desk slot.book)).2 ∧
      (e.exclusive i slot act).events = [] := by
  rw [← atRest_outcome]
  unfold exclusive at h ⊢
  cases hrun : Desk.atRest act (e.desk slot.book) with
  | error f' d =>
      rw [Attempt.outcome_error hrun]
      exact ⟨rfl, events_faultNotices f'⟩
  | ok a d =>
      rw [hrun] at h
      cases h

theorem guarded_of_error (h : (e.guarded i slot id act).answer = .error f) :
    (e.guarded i slot id act).engine =
        e.leave i (spared id (Attempt.outcome act (e.desk slot.book)).2) ∧
      (e.guarded i slot id act).events = [] := by
  rw [← atRest_outcome]
  unfold guarded at h ⊢
  cases hrun : Desk.atRest act (e.desk slot.book) with
  | error f' d =>
      rw [Attempt.outcome_error hrun]
      refine ⟨rfl, ?_⟩
      show List.filterMap Output.event? (faultNotices f' ++ _) = []
      rw [List.filterMap_append, events_faultNotices]
      rfl
  | ok a d =>
      rw [hrun] at h
      cases h

/-- After `Worked` on one book every order has come by fills from one that rested, or is new. -/
theorem rests_of_worked {New : Order → Prop} {d : Desk} (hslot : e.slots[i]? = some slot)
    (hw : Desk.Worked id New (e.desk slot.book) d) {j : Nat} {x : Order}
    (hx : (e.leave i d).Rests j x) : (∃ o, e.Rests j o ∧ o.Filled x) ∨ New x := by
  rcases (rests_leave hslot).mp hx with ⟨rfl, hheld⟩ | ⟨-, hrests⟩
  · rcases hw.holds x hheld with ⟨o, ho, hfilled⟩ | hnew
    · exact Or.inl ⟨o, ⟨slot, hslot, ho⟩, hfilled⟩
    · exact Or.inr hnew
  · exact Or.inl ⟨x, hrests, .none⟩

theorem submit_stopped {intent : OrderIntent} (h : e.Sound) (hadm : e.Admits world intent i slot)
    (ha : (e.submit world intent).answer = .error f) :
    (e.submit world intent).events = [] ∧
      ∀ j x, (e.submit world intent).engine.Rests j x →
        (∃ o, e.Rests j o ∧ o.Filled x) ∨ (e.entering world intent).Filled x := by
  obtain ⟨reply, hreply, hengine, hanswer, hevents⟩ := submit_of_admits hadm
  have herror := map_eq_error.mp (hanswer.symm.trans ha)
  rw [h.rule_eq] at hreply
  rw [hreply] at herror
  obtain ⟨hleave, hsilent⟩ := guarded_of_error herror
  rw [hengine, hevents, hreply, hleave]
  have hwork := Desk.execute_worked MatchingRule.fills_priceTime world (hadm.enters h.toInOrder)
  refine ⟨hsilent, fun j x => rests_of_worked (e := e.received i (e.entering world intent).id)
    (slot_of_lookup? hadm.found) (spared_worked ?_)⟩
  cases hrun : Desk.execute .priceTime world (e.entering world intent)
      ((e.received i (e.entering world intent).id).desk slot.book) with
  | error f' d =>
      rw [hrun] at hwork
      rw [Attempt.outcome_error hrun]
      exact hwork.mono fun _ => False.elim
  | ok r d =>
      rw [hrun] at hwork
      rw [Attempt.outcome_ok hrun]
      exact hwork

theorem cancel_stopped (h : e.Sound) (ha : (e.cancel world id).answer = .error f) :
    (e.cancel world id).events = [] ∧
      ∀ j x, (e.cancel world id).engine.Rests j x → ∃ o, e.Rests j o ∧ o.Filled x := by
  cases hl : e.locate? id with
  | none =>
      rw [cancel_not_found hl] at ha
      cases ha
  | some place =>
      obtain ⟨hslot, -⟩ := route_of_locate? hl
      obtain ⟨reply, hreply, hengine, hanswer, hevents⟩ := cancel_run world hl
      rw [hanswer, hreply] at ha
      obtain ⟨hleave, hsilent⟩ := exclusive_of_error ha
      rw [hengine, hevents, hreply, hleave]
      have hwork := Desk.cancel_worked (d := e.desk place.2.book) world id (h.book hslot)
        fun o ho => h.sized ⟨place.2, hslot, ho⟩
      have hworked : Desk.Worked id (fun _ => False) (e.desk place.2.book)
          (Attempt.outcome (Desk.cancel world id) (e.desk place.2.book)).2 := by
        cases hrun : Desk.cancel world id (e.desk place.2.book) with
        | error f' d =>
            rw [hrun] at hwork
            rw [Attempt.outcome_error hrun]
            exact hwork
        | ok r d =>
            rw [hrun] at hwork
            rw [Attempt.outcome_ok hrun]
            exact hwork
      exact ⟨hsilent, fun j x hx => (rests_of_worked hslot hworked hx).resolve_right False.elim⟩

end Engine

end Bourse
