import Bourse.Proofs.Engine.Stopped
import Bourse.Proofs.Engine.Solvent

/-!
# What an aborted call holds on to

A call on behalf of an order that is stopped at a fault lets go of its identity, unless
the order rests: the identity is `Released`. Where the call was stopped makes no
difference: before the order was put in, after it was taken out, or with the book crossed
at the end (`guarded_released`). An identity without a route stays so until it is sent in
again, since no work for one identity gives another a route (`unrouted_of_worked`).
-/

namespace Bourse

namespace Engine

/-- The identity rests in the book of the slot and is routed to it, or it has no route. -/
def Released (e : Engine) (i : Nat) (id : OrderId) : Prop :=
  ((∃ o, e.Rests i o ∧ o.id = id) ∧ ∃ r, e.routes.get? id = some r ∧ r.slot = i) ∨
    e.routes.get? id = none

variable {e : Engine} {i : Nat} {slot : Slot} {world : Surroundings} {id x : OrderId} {f : Fault}
  {α : Type} {act : Attempt Desk α}

theorem guarded_released (hslot : e.slots[i]? = some slot)
    (hs : (e.guarded i slot id act).engine.InOrder)
    (ha : (e.guarded i slot id act).answer = .error f) :
    (e.guarded i slot id act).engine.Released i id := by
  obtain ⟨hleave, -⟩ := guarded_of_error ha
  generalize (Attempt.outcome act (e.desk slot.book)).2 = d at hleave
  rw [hleave] at hs ⊢
  by_cases hc : d.book.contains id
  · have hd : spared id d = d := if_pos hc
    rw [hd] at hs ⊢
    have hbook : (e.leave i d).slots[i]? = some { slot with book := d.book } := by
      rw [slots_leave hslot, if_pos rfl]
    obtain ⟨o, ho, rfl⟩ := (hs.book hbook).contains_iff.mp hc
    have hrests : (e.leave i d).Rests i o := ⟨_, hbook, ho⟩
    exact Or.inl ⟨⟨o, hrests, rfl⟩, hs.routed hrests⟩
  · have hd : spared id d = d.release id := if_neg hc
    rw [hd]
    exact Or.inr (Table.get?_erase_self _ _)

/-- A `Valid` submission that is aborted has been admitted. -/
theorem admits_of_aborted {intent : OrderIntent} (hvalid : e.Valid intent)
    (ha : (e.submit world intent).answer = .error f) :
    ∃ i slot, e.Admits world intent i slot := by
  obtain ⟨i, slot, hfound, hchecked⟩ := hvalid
  cases hroute : e.routes.get? (e.entering world intent).id with
  | none => exact ⟨i, slot, hfound, hchecked, hroute⟩
  | some r =>
      obtain ⟨-, -, hanswer⟩ := submit_duplicate world ⟨i, slot, hfound, hchecked⟩
        (by rw [hroute]; exact Option.some_ne_none r)
      rw [ha] at hanswer
      cases hanswer

theorem submit_released (hrule : e.rule.Fills) (hs : e.InOrder) {intent : OrderIntent}
    (hvalid : e.Valid intent) (ha : (e.submit world intent).answer = .error f) :
    ∃ i slot, e.lookup? intent.symbol = some (i, slot) ∧
      (e.submit world intent).engine.Released i (e.entering world intent).id := by
  have hs' := submit_inOrder hrule hs world intent
  obtain ⟨i, slot, hadm⟩ := admits_of_aborted hvalid ha
  obtain ⟨reply, hreply, hengine, hanswer, -⟩ := submit_of_admits hadm
  have herror := map_eq_error.mp (hanswer.symm.trans ha)
  refine ⟨i, slot, hadm.found, ?_⟩
  rw [hengine, hreply] at hs' ⊢
  rw [hreply] at herror
  exact guarded_released (e := e.received i _) (slot_of_lookup? hadm.found) hs' herror

theorem modify_released (hrule : e.rule.Fills) (hs : e.InOrder) (hlive : e.Live)
    {request : ModifyRequest} (ha : (e.modify world id request).answer = .error f) :
    ∃ i slot, e.locate? id = some (i, slot) ∧
      (e.modify world id request).engine.Released i id := by
  have hs' := modify_inOrder hrule hs hlive world id request
  by_cases hrevises : ∃ i slot, e.Revises id request i slot
  · obtain ⟨i, slot, hr⟩ := hrevises
    refine ⟨i, slot, hr.found, ?_⟩
    rw [modify_of_revises hr] at ha hs' ⊢
    exact guarded_released (route_of_locate? hr.found).1 hs' ha
  · obtain ⟨-, -, hanswer⟩ :=
      modify_refused world hs fun i slot hr => hrevises ⟨i, slot, hr⟩
    rcases hanswer with hok | ⟨reason, hok⟩ <;> rw [ha] at hok <;> cases hok

/-! ## Identities without a route -/

theorem ne_of_routed (hroute : ∃ r, e.routes.get? id = some r ∧ r.slot = i)
    (hfree : e.routes.get? x = none) : x ≠ id := by
  rintro rfl
  obtain ⟨r, hr, -⟩ := hroute
  rw [hfree] at hr
  cases hr

/-- Work on behalf of another identity gives none a route. -/
theorem unrouted_of_worked {d : Desk} (hs : e.InOrder) (hslot : e.slots[i]? = some slot)
    (hw : Desk.Worked id (fun _ => True) (e.desk slot.book) d) (hne : x ≠ id)
    (hfree : e.routes.get? x = none) : d.routes.get? x = none :=
  (hw.route_eq x (Or.inr ⟨hne, hs.not_has hslot hfree⟩)).trans hfree

theorem unrouted_of_guarded (hs : e.InOrder) (hslot : e.slots[i]? = some slot)
    (hw : Desk.Worked id (fun _ => True) (e.desk slot.book)
      (Attempt.outcome act (e.desk slot.book)).2)
    (hne : x ≠ id) (hfree : e.routes.get? x = none) :
    (e.guarded i slot id act).engine.routes.get? x = none := by
  obtain ⟨d, hd, rfl | rfl⟩ := guarded_outcome e i slot id act
  · rw [hd]
    exact unrouted_of_worked hs hslot hw hne hfree
  · rw [hd]
    exact unrouted_of_worked hs hslot (spared_worked hw) hne hfree

theorem submit_unrouted (hrule : e.rule.Fills) (hs : e.InOrder) {intent : OrderIntent}
    (hother : e.Valid intent → (e.entering world intent).id ≠ x)
    (hfree : e.routes.get? x = none) : (e.submit world intent).engine.routes.get? x = none := by
  by_cases hadmits : ∃ i slot, e.Admits world intent i slot
  · obtain ⟨i, slot, hadm⟩ := hadmits
    have hne : x ≠ (e.entering world intent).id :=
      (hother ⟨i, slot, hadm.found, hadm.checked⟩).symm
    obtain ⟨reply, hreply, hengine, -, -⟩ := submit_of_admits hadm
    have hwork := Desk.execute_worked hrule world (hadm.enters hs)
    rw [hengine, hreply]
    refine unrouted_of_guarded (hs.received hadm.free i) (slot_of_lookup? hadm.found)
      (Attempt.outcome_state ?_) hne ((Table.get?_insert_of_ne _ hne _).trans hfree)
    generalize Desk.execute _ _ _ _ = out at hwork ⊢
    cases out <;> exact hwork.mono fun _ _ => trivial
  · have hrefused := submit_refused hs fun i slot ha => hadmits ⟨i, slot, ha⟩
    rw [hrefused.unmoved.routes_eq]
    exact hfree

theorem cancel_unrouted (hs : e.InOrder) (hfree : e.routes.get? x = none) :
    (e.cancel world id).engine.routes.get? x = none := by
  cases hl : e.locate? id with
  | none =>
      rw [cancel_not_found hl]
      exact hfree
  | some place =>
      obtain ⟨hslot, hroute⟩ := route_of_locate? hl
      obtain ⟨reply, hreply, hengine, -, -⟩ := cancel_run world hl
      have hwork := Desk.cancel_worked (d := e.desk place.2.book) world id (hs.book hslot)
        fun o ho => hs.sized ⟨place.2, hslot, ho⟩
      rw [hengine, hreply, exclusive_outcome]
      refine unrouted_of_worked hs hslot (Attempt.outcome_state ?_) (ne_of_routed hroute hfree)
        hfree
      generalize Desk.cancel _ _ _ = out at hwork ⊢
      cases out <;> exact hwork.mono fun _ _ => trivial

theorem modify_unrouted (hrule : e.rule.Fills) (hs : e.InOrder) (hlive : e.Live)
    {request : ModifyRequest} (hfree : e.routes.get? x = none) :
    (e.modify world id request).engine.routes.get? x = none := by
  by_cases hrevises : ∃ i slot, e.Revises id request i slot
  · obtain ⟨i, slot, hr⟩ := hrevises
    obtain ⟨hslot, hroute⟩ := route_of_locate? hr.found
    have hwork := Desk.modifyOrder_worked hrule world id request (hs.ready hlive hslot)
      (Int.le_of_lt (passed_of_checkRequest hr.checked).1)
    rw [modify_of_revises hr]
    refine unrouted_of_guarded hs hslot (Attempt.outcome_state ?_) (ne_of_routed hroute hfree) hfree
    generalize Desk.modifyOrder _ _ _ _ _ = out at hwork ⊢
    cases out <;> exact hwork.mono fun _ _ => trivial
  · rw [(modify_refused world hs fun i slot hr => hrevises ⟨i, slot, hr⟩).1]
    exact hfree

end Engine

end Bourse
