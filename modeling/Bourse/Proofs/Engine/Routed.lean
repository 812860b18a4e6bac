import Bourse.Proofs.Engine.Told

/-!
# Routes lead nowhere else

`Engine.Sound` says that what rests has a route. Here is the other half, `Engine.Tidy`:
every route leads to an order that rests. The two halves are kept by different means. A
route stays because nothing takes it away while its order rests, whatever stops a call;
but it goes only when its order is reported filled or cancelled, so a call that breaks off
may leave one behind. An engine whose calls have all come to their end has none to spare,
since they leave their desk `Rerouted`.
-/

namespace Bourse

namespace Encounter

/-- What has gone in a matching was filled in it. -/
theorem Trades.gone {e e' : Encounter} {moments : List (Encounter × Fill)}
    (h : Trades e moments e') (hs : e.book.Sound) {x : Order} (hx : e.book.Holds x)
    (hgone : ¬ e'.book.Has x.id) :
    ∃ m ∈ moments, m.2.maker.status = .filled ∧ m.2.maker.id = x.id := by
  by_cases htraded : ∃ m ∈ moments, m.2.maker.id = x.id
  · obtain ⟨m, hm, hid⟩ := htraded
    refine ⟨m, hm, (h.maker_status hs hm).resolve_right fun hstatus => hgone ?_, hid⟩
    exact ⟨m.2.maker, (h.bears hs hm).rests (by rw [hstatus]; rfl), hid⟩
  · have hstill := (h.untouched hs fun m hm hid => htraded ⟨m, hm, hid⟩).mpr hx
    exact absurd ⟨x, hstill, rfl⟩ hgone

end Encounter

namespace Desk

/-- The routes after work on behalf of an identity. What rests keeps its route; of the identity
itself, and of what rested before, no route is left once it rests no more. -/
structure Rerouted (id : OrderId) (d d' : Desk) : Prop where
  kept : ∀ x, d'.book.Has x ∨ (x ≠ id ∧ ¬ d.book.Has x) →
    d'.routes.get? x = d.routes.get? x
  freed : ∀ x, x = id ∨ d.book.Has x → ¬ d'.book.Has x → d'.routes.get? x = none

variable {world : Surroundings} {o : Order} {d d' : Desk} {id : OrderId}

/-- Work that lets everything rest, and the routes alone, leaves the desk `Rerouted`. -/
theorem Rerouted.still (hid : d.book.Has id) (hhas : ∀ x, d.book.Has x → d'.book.Has x)
    (hr : d'.routes = d.routes) : Rerouted id d d' where
  kept _ _ := by rw [hr]
  freed x hx hgone := by
    rcases hx with rfl | hx
    · exact absurd (hhas _ hid) hgone
    · exact absurd (hhas x hx) hgone

theorem Executed.freed {r : OrderResult} (h : Executed world o d r d') (hent : Enters o d)
    (hpos : 0 < o.remaining) (x : OrderId) (hx : x = o.id ∨ d.book.Has x)
    (hgone : ¬ d'.book.Has x) : d'.routes.get? x = none := by
  cases h with
  | killed _ _ hbook _ _ hfree _ =>
      rcases hx with rfl | hx
      · exact hfree
      · exact absurd (hbook ▸ hx) hgone
  | @matched moments final o' _ _ _ _ _ _ hm _ _ hset _ _ hmakers hown _ =>
      have hs := hent.sound
      have hfilled := hm.filled hs
      obtain ⟨-, hbears, hbook⟩ := hset.bears hent hpos hfilled (hm.worn hs)
      have hid : o'.id = o.id := hset.same.id_eq.trans hfilled.same.id_eq
      rcases hx with rfl | ⟨y, hy, rfl⟩
      · cases hterminal : o'.status.isTerminal with
        | true => exact hid ▸ hown hterminal
        | false => exact absurd ⟨o', hbears.rests hterminal, hid⟩ hgone
      · have hgone' : ¬ final.book.Has y.id := by
          rintro ⟨z, hz, hzid⟩
          rcases hbook with hbook | harr
          · exact hgone ⟨z, hbook ▸ hz, hzid⟩
          · exact hgone ⟨z, (harr.holds_iff z).mpr (Or.inr hz), hzid⟩
        obtain ⟨m, hm', hstatus, hmid⟩ := hm.gone hs hy hgone'
        rw [← hmid]
        exact hmakers m hm' hstatus

theorem rerouted_of_execute {r : OrderResult} (hent : Enters o d) (hpos : 0 < o.remaining)
    (hrun : execute .priceTime world o d = .ok r d') : Rerouted o.id d d' := by
  have hwork := execute_worked MatchingRule.fills_priceTime world hent
  rw [hrun] at hwork
  exact ⟨hwork.route_eq, (executed_of_ok hent.sound hrun).freed hent hpos⟩

theorem Cancelled.rerouted {r : CancelResult} (h : Cancelled world id d r d')
    (hl : d.book.Lively) (hid : d.book.Has id) : Rerouted id d d' := by
  cases h with
  | absent hnot => exact absurd hid hnot
  | dead ho _ hdead _ =>
      rw [(hl _ ho).1] at hdead
      cases hdead
  | @found o _ _ _ ho hoid _ hdep _ _ hroutes _ =>
      subst hoid
      refine ⟨fun x hx => ?_, fun x hx hgone => ?_⟩
      · rw [hroutes]
        refine Table.get?_erase_of_ne _ ?_
        rcases hx with hx | hx
        · exact (hdep.has_iff.mp hx).2
        · exact hx.1
      · rw [hroutes]
        by_cases hne : x = o.id
        · rw [hne, Table.get?_erase_self]
        · exact absurd (hdep.has_iff.mpr ⟨hx.resolve_left hne, hne⟩) hgone

theorem Modified.rerouted {request : ModifyRequest} {r : ModifyResult}
    (h : Modified world id request d r d') (hready : d.Ready) (hq : 0 < request.quantity)
    (hid : d.book.Has id) : Rerouted id d d' := by
  cases h with
  | absent hnot => exact absurd hid hnot
  | same _ _ _ _ => exact .still hid (fun _ hx => hx) rfl
  | @lessened o o' _ _ _ ho _ _ _ _ hset hrew _ _ _ hroutes =>
      refine .still hid (fun x hx => ?_) hroutes
      obtain ⟨y, hy, rfl⟩ := hx
      by_cases hne : y.id = o.id
      · refine ⟨o', (hrew.holds_iff o').mpr (Or.inl rfl), ?_⟩
        rw [(Order.same_of_setRemaining hset).id_eq, hne]
      · exact ⟨y, (hrew.holds_iff y).mpr (Or.inr ⟨hy, hne⟩), rfl⟩
  | @requeued o o' b _ _ ho hoid _ _ hdep hset hexec =>
      subst hoid
      have hent := hready.enters ho (Int.le_of_lt hq) hdep hset
      obtain ⟨_, _, -, -, rfl⟩ := Order.setRemaining_eq_ok hset
      have hrerouted := rerouted_of_execute hent hq hexec
      refine ⟨fun x hx => hrerouted.kept x ?_, fun x hx hgone => hrerouted.freed x ?_ hgone⟩
      · rcases hx with hx | ⟨hne, hnot⟩
        · exact Or.inl hx
        · exact Or.inr ⟨hne, fun hy => hnot (hdep.has_iff.mp hy).1⟩
      · by_cases hne : x = o.id
        · exact Or.inl hne
        · exact Or.inr (hdep.has_iff.mpr ⟨hx.resolve_left hne, hne⟩)

end Desk

namespace Engine

/-- Every route leads to an order that rests. -/
def Tidy (e : Engine) : Prop :=
  ∀ (id : OrderId) (r : Route), e.routes.get? id = some r → ∃ o, e.Rests r.slot o ∧ o.id = id

variable {e : Engine} {i : Nat} {slot : Slot} {d : Desk} {id : OrderId} {world : Surroundings}

/-- Work on behalf of an identity leaves an engine `Tidy`, if the routes of all others were. -/
theorem tidy_leave (hslot : e.slots[i]? = some slot)
    (ht : ∀ x r, x ≠ id → e.routes.get? x = some r → ∃ o, e.Rests r.slot o ∧ o.id = x)
    (hr : Desk.Rerouted id (e.desk slot.book) d) (hs : (e.leave i d).Sound) :
    (e.leave i d).Tidy := by
  intro x r hx
  change d.routes.get? x = some r at hx
  by_cases hrests : d.book.Has x
  · obtain ⟨o, ho, rfl⟩ := hrests
    have hleft : (e.leave i d).Rests i o := (rests_leave hslot).mpr (Or.inl ⟨rfl, ho⟩)
    obtain ⟨r', hr', hi⟩ := hs.routed hleft
    change d.routes.get? o.id = some r' at hr'
    rw [hx] at hr'
    cases hr'
    exact ⟨o, hi ▸ hleft, rfl⟩
  · -- A route that is left over is of an identity that the work had nothing to do with.
    have hothers : x ≠ id ∧ ¬ slot.book.Has x := by
      constructor
      · rintro rfl
        rw [hr.freed x (Or.inl rfl) hrests] at hx
        cases hx
      · intro hbefore
        rw [hr.freed x (Or.inr hbefore) hrests] at hx
        cases hx
    have hbefore : e.routes.get? x = some r := (hr.kept x (Or.inr hothers)).symm.trans hx
    obtain ⟨o, ho, hoid⟩ := ht x r hothers.1 hbefore
    refine ⟨o, (rests_leave hslot).mpr (Or.inr ⟨fun hi => ?_, ho⟩), hoid⟩
    obtain ⟨slot', hslot', hheld⟩ := ho
    rw [hi, hslot] at hslot'
    cases hslot'
    exact hothers.2 ⟨o, hheld, hoid⟩

theorem Unmoved.tidy {e' : Engine} (h : Unmoved e e') (ht : e.Tidy) : e'.Tidy := by
  intro x r hx
  rw [h.routes_eq] at hx
  obtain ⟨o, ho, hid⟩ := ht x r hx
  exact ⟨o, h.rests_iff.mpr ho, hid⟩

/-- The order that `locate?` finds on a `Tidy` engine rests in the slot it is located in. -/
theorem Tidy.has (ht : e.Tidy) (hl : e.locate? id = some (i, slot)) : slot.book.Has id := by
  obtain ⟨hslot, r, hr, rfl⟩ := route_of_locate? hl
  obtain ⟨o, ⟨slot', hslot', ho⟩, hid⟩ := ht id r hr
  rw [hslot] at hslot'
  cases hslot'
  exact ⟨o, ho, hid⟩

theorem tidy_empty (rule : MatchingRule) : (Engine.empty rule).Tidy := by
  intro x r hx
  cases hx

theorem Tidy.addInstrument (ht : e.Tidy) (config : InstrumentConfig) :
    (e.addInstrument config).engine.Tidy := by
  intro x r hx
  rw [(addInstrument_keeps e config).2.1] at hx
  obtain ⟨o, ho, hid⟩ := ht x r hx
  exact ⟨o, (addInstrument_rests e config _ o).mpr ho, hid⟩

theorem Tidy.submit {intent : OrderIntent} {res : Except Rejection OrderResult} (ht : e.Tidy)
    (hs : e.Sound) (ha : (e.submit world intent).answer = .ok res) :
    (e.submit world intent).engine.Tidy := by
  have hs' := submit_sound hs world intent
  cases res with
  | error why => exact (submit_of_rejected hs ha).unmoved.tidy ht
  | ok r =>
      obtain ⟨i, slot, d, hadm, hexec, hengine, -⟩ := submit_of_ok hs ha
      have hpos := (passed_of_checkIntent hadm.checked).pos
      rw [hengine] at hs' ⊢
      refine tidy_leave (slot_of_lookup? hadm.found) (fun x r hne hx => ht x r ?_)
        (Desk.rerouted_of_execute (hadm.enters hs.toInOrder) hpos hexec) hs'
      exact (Table.get?_insert_of_ne _ hne _).symm.trans hx

theorem Tidy.cancel {r : CancelResult} (ht : e.Tidy) (hs : e.Sound) (hl : e.Lively)
    (ha : (e.cancel world id).answer = .ok r) : (e.cancel world id).engine.Tidy := by
  have hs' := cancel_sound hs world id
  rcases cancel_of_ok hs ha with ⟨hengine, -⟩ | ⟨i, slot, d, hloc, hcancel, hengine, -⟩
  · rw [hengine]
    exact ht
  · have hslot := (route_of_locate? hloc).1
    rw [hengine] at hs' ⊢
    exact tidy_leave hslot (fun x r _ => ht x r)
      (hcancel.rerouted (hl i slot hslot) (ht.has hloc)) hs'

theorem Tidy.modify {request : ModifyRequest} {r : ModifyResult} (ht : e.Tidy) (hs : e.Sound)
    (hl : e.Lively) (ha : (e.modify world id request).answer = .ok r) :
    (e.modify world id request).engine.Tidy := by
  have hs' := modify_sound hs hl.live world id request
  rcases modify_of_ok hs ha with ⟨hengine, -⟩ | ⟨i, slot, d, hrev, hmod, hengine, -⟩
  · rw [hengine]
    exact ht
  · have hslot := (route_of_locate? hrev.found).1
    rw [hengine] at hs' ⊢
    exact tidy_leave hslot (fun x r _ => ht x r) (hmod.rerouted (hs.ready hl.live hslot)
      (passed_of_checkRequest hrev.checked).1 (ht.has hrev.found)) hs'

end Engine

end Bourse
