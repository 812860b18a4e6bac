import Bourse.Proofs.Engine.Stamps
import Bourse.Proofs.Run.Release

/-!
# Calls that come to the same

A call is checked against the configuration of its instrument, asks the routes whether an
identity is live, and then works on one book. Two engines that agree in these, at `place?`
and `Enrols`, answer the same call alike and leave books that are alike (`perform_alike`),
whatever else they hold and however far they have counted.
-/

namespace Bourse

/-- The same has been answered: neither call was stopped, and they differ in numbers, times and the
identities of trades alone. -/
inductive Answer.Alike : Answer → Answer → Prop
  | accepted {r r' : OrderResult} : r.Alike r' →
      Alike (.submitted (.ok (.ok r))) (.submitted (.ok (.ok r')))
  | rejected (why : Rejection) :
      Alike (.submitted (.ok (.error why))) (.submitted (.ok (.error why)))
  | cancelled (r : CancelResult) : Alike (.cancelled (.ok r)) (.cancelled (.ok r))
  | modified {r r' : ModifyResult} : r.Alike r' →
      Alike (.modified (.ok r)) (.modified (.ok r'))

/-- The same instrument, and books that are alike. -/
structure Slot.Alike (s s' : Slot) : Prop where
  config_eq : s'.config = s.config
  book : s.book.Like .stamps s'.book

theorem Slot.Alike.refl (s : Slot) : s.Alike s := ⟨rfl, .refl _ _⟩

namespace Engine

/-- At a place two engines have slots that are `Slot.Alike`. -/
def AlikeAt (i : Nat) (e e' : Engine) : Prop :=
  ∃ s s', e.slots[i]? = some s ∧ e'.slots[i]? = some s' ∧ s.Alike s'

variable {e e' : Engine} {i : Nat} {slot : Slot} {world world' : Surroundings} {id : OrderId}

theorem alikeAt_of_eq (hslot : e.slots[i]? = some slot) (hslot' : e'.slots[i]? = some slot) :
    e.AlikeAt i e' := ⟨slot, slot, hslot, hslot', .refl slot⟩

theorem alikeAt_leave {d d' c c' : Desk} (hslot : e.slots[i]? = some slot)
    (hslot' : e'.slots[i]? = some slot) (h : Desk.Alike d d' c c') :
    (e.leave i d').AlikeAt i (e'.leave i c') :=
  ⟨{ slot with book := d'.book }, { slot with book := c'.book },
    by rw [slots_leave hslot, if_pos rfl], by rw [slots_leave hslot', if_pos rfl], rfl, h.book⟩

end Engine

/-- Two turns that came to the same: they were answered alike, told of the same and counted the
same. -/
structure Turn.Alike (t t' : Turn) : Prop where
  answer : t.answer.Alike t'.answer
  events : List.Forall₂ (Event.Like .stamps) t.events t'.events
  counters : Counters.Apace t.before.counters t.after.counters t'.before.counters t'.after.counters

/-- Turns that are `Alike` and also left slots that are alike, where they were about one. -/
structure Turn.AlikeAt (desk : Option Nat) (t t' : Turn) : Prop extends t.Alike t' where
  slot : ∀ i, desk = some i → t.after.AlikeAt i t'.after

/-- The turn was answered so, sent these events and left this engine. -/
structure Turn.Leaves (t : Turn) (answer : Answer) (events : List Event) (after : Engine) :
    Prop where
  answer_eq : t.answer = answer
  events_eq : t.events = events
  after_eq : t.after = after

/-- The identity of an order that a call names. -/
def Call.id? : Call → Option OrderId
  | .addInstrument _ => none
  | .submit _ intent => intent.orderId
  | .cancel _ id | .modify _ id _ => some id

/-- The same is asked again, in other surroundings. -/
inductive Call.Again : Call → Call → Prop
  | addInstrument (config : InstrumentConfig) :
      Again (.addInstrument config) (.addInstrument config)
  | submit (world world' : Surroundings) (intent : OrderIntent) :
      Again (.submit world intent) (.submit world' intent)
  | cancel (world world' : Surroundings) (id : OrderId) :
      Again (.cancel world id) (.cancel world' id)
  | modify (world world' : Surroundings) (id : OrderId) (request : ModifyRequest) :
      Again (.modify world id request) (.modify world' id request)

namespace Engine

section Leaves

variable {e : Engine} {world : Surroundings}

theorem leaves_submit {intent : OrderIntent} {r : Reply Fault (Except Rejection OrderResult)}
    (h : e.submit world intent = r) :
    (e.perform (.submit world intent)).Leaves (.submitted r.answer) r.events r.engine :=
  h ▸ ⟨rfl, rfl, rfl⟩

theorem leaves_cancel {id : OrderId} {r : Reply Fault CancelResult} (h : e.cancel world id = r) :
    (e.perform (.cancel world id)).Leaves (.cancelled r.answer) r.events r.engine :=
  h ▸ ⟨rfl, rfl, rfl⟩

theorem leaves_modify {id : OrderId} {request : ModifyRequest} {r : Reply Fault ModifyResult}
    (h : e.modify world id request = r) :
    (e.perform (.modify world id request)).Leaves (.modified r.answer) r.events r.engine :=
  h ▸ ⟨rfl, rfl, rfl⟩

end Leaves

section Refusals

variable {e e' : Engine} {i : Nat} {slot : Slot} {intent : OrderIntent}

/-- The intent is rejected for a reason, and the update that tells of it is all that happens. -/
structure Declines (e : Engine) (world : Surroundings) (intent : OrderIntent)
    (reason : RejectReason) (u : OrderUpdate) : Prop where
  told : OrderUpdate.rejected { e.entering world intent with status := .rejected } reason world.now
    (e.counters.events + 1) = .ok u
  leaves : (e.perform (.submit world intent)).Leaves
    (.submitted (.ok (.error ⟨(e.entering world intent).id, reason⟩))) [.update u] e.afterRejection

theorem declines_unlisted (world : Surroundings) (hl : e.lookup? intent.symbol = none) :
    ∃ u, e.Declines world intent (.unknownSymbol intent.symbol) u := by
  obtain ⟨u, hu, hrun⟩ := Desk.refuse_told world
    (o := Order.ofIntent (intent.orderId.getD world.orderId) world.now intent)
    (.unknownSymbol intent.symbol) (e.desk (.empty intent.symbol)) rfl rfl
  have hsubmit : e.submit world intent = e.rejectUnlisted world
      (Order.ofIntent (intent.orderId.getD world.orderId) world.now intent) := by
    unfold submit
    rw [hl]
  unfold rejectUnlisted at hsubmit
  dsimp only [Order.ofIntent] at hrun hsubmit
  rw [hrun] at hsubmit
  exact ⟨u, hu, leaves_submit hsubmit⟩

theorem declines_objected {reason : RejectReason} (world : Surroundings)
    (hl : e.lookup? intent.symbol = some (i, slot))
    (hc : checkIntent slot.config intent = .error (.refusal reason))
    (huncrossed : slot.book.isCrossed = false) : ∃ u, e.Declines world intent reason u := by
  obtain ⟨u, hu, hrun⟩ := Desk.refuse_told world
    (o := Order.ofIntent (intent.orderId.getD world.orderId) world.now intent) reason
    (e.desk slot.book) rfl rfl
  have hengine : e.leave i ((e.desk slot.book).stamped.told (.update u)) = e.afterRejection :=
    leave_same (slot_of_lookup? hl) rfl
  have hsubmit : e.submit world intent = e.rejectListed world i slot
      (Order.ofIntent (intent.orderId.getD world.orderId) world.now intent) reason := by
    unfold submit
    rw [hl]
    dsimp only
    rw [hc]
  unfold rejectListed at hsubmit
  rw [exclusive_of_uncrossed hrun huncrossed, hengine] at hsubmit
  exact ⟨u, hu, leaves_submit hsubmit⟩

/-- A new order that asks for the same is `Alike` but for its number and its time. -/
theorem entering_alike (world world' : Surroundings) (hid : intent.orderId.isSome) :
    (e.entering world intent).Alike (e'.entering world' intent) := by
  obtain ⟨x, hx⟩ := Option.isSome_iff_exists.mp hid
  refine ⟨?_, rfl, rfl, rfl, rfl, rfl, rfl, rfl, rfl⟩
  simp only [entering, Order.ofIntent, hx, Option.getD_some]

theorem entering_id (world : Surroundings) {x : OrderId} (hx : intent.orderId = some x) :
    (e.entering world intent).id = x := by
  simp only [entering, Order.ofIntent, hx, Option.getD_some]

end Refusals

/-- The place and the slot that a call is about. -/
def place? (e : Engine) : Call → Option (Nat × Slot)
  | .addInstrument _ => none
  | .submit _ intent => e.lookup? intent.symbol
  | .cancel _ id | .modify _ id _ => e.locate? id

theorem deskOf?_eq (e : Engine) (call : Call) : e.deskOf? call = (e.place? call).map Prod.fst := by
  cases call <;> rfl

theorem slot_of_place? {e : Engine} {call : Call} {i : Nat} {slot : Slot}
    (h : e.place? call = some (i, slot)) : e.slots[i]? = some slot := by
  cases call with
  | addInstrument config => cases h
  | submit world intent => exact slot_of_lookup? h
  | cancel world id => exact (route_of_locate? h).1
  | modify world id request => exact (route_of_locate? h).1

section Calls

variable {p : Decimal.Precision} {bound bound' off off' : Int} {count count' : Nat}
  {e e' f f' : Engine} {i : Nat} {slot : Slot} {world world' : Surroundings} {id : OrderId}
  {call call' : Call} {answer answer' : Answer}

/-- Calls that only count came to the same if they were answered alike, told of the same and counted
the same. -/
theorem alike_of_still {events events' : List Event} {c c' : Counters}
    (hplace : e'.place? call = e.place? call)
    (h : (e.perform call).Leaves answer events { e with counters := c })
    (h' : (e'.perform call').Leaves answer' events' { e' with counters := c' })
    (ha : answer.Alike answer') (hevents : List.Forall₂ (Event.Like .stamps) events events')
    (hc : Counters.Apace e.counters c e'.counters c') :
    Turn.AlikeAt (e.deskOf? call) (e.perform call) (e'.perform call') where
  answer := by rwa [h.answer_eq, h'.answer_eq]
  events := by rwa [h.events_eq, h'.events_eq]
  counters := by rwa [before_perform, before_perform, h.after_eq, h'.after_eq]
  slot i hi := by
    rw [deskOf?_eq, Option.map_eq_some_iff] at hi
    obtain ⟨place, hfound, rfl⟩ := hi
    rw [h.after_eq, h'.after_eq]
    exact alikeAt_of_eq (slot_of_place? hfound) (slot_of_place? (hplace.trans hfound))

/-- Calls whose work at their desks came to the same came to the same. -/
theorem alike_of_desks {d d' c c' : Desk} (hplace : e.place? call = some (i, slot))
    (hslot : f.slots[i]? = some slot) (hslot' : f'.slots[i]? = some slot)
    (h : (e.perform call).Leaves answer d'.emitted (f.leave i d'))
    (h' : (e'.perform call').Leaves answer' c'.emitted (f'.leave i c'))
    (ha : answer.Alike answer') (hd : Desk.Alike d d' c c')
    (hbefore : Counters.Apace e.counters d.counters e'.counters c.counters) :
    Turn.AlikeAt (e.deskOf? call) (e.perform call) (e'.perform call') where
  answer := by rwa [h.answer_eq, h'.answer_eq]
  events := by
    rw [h.events_eq, h'.events_eq]
    exact hd.events
  counters := by
    rw [before_perform, before_perform, h.after_eq, h'.after_eq]
    exact hbefore.trans hd.counters
  slot j hj := by
    rw [deskOf?_eq, hplace] at hj
    cases hj
    rw [h.after_eq, h'.after_eq]
    exact alikeAt_leave hslot hslot' hd

section Submit

variable {intent : OrderIntent}

theorem declined_alike {reason : RejectReason} {u u' : OrderUpdate}
    (h : e.Declines world intent reason u) (h' : e'.Declines world' intent reason u')
    (hid : intent.orderId.isSome) (hplace : e'.lookup? intent.symbol = e.lookup? intent.symbol) :
    Turn.AlikeAt (e.deskOf? (.submit world intent)) (e.perform (.submit world intent))
      (e'.perform (.submit world' intent)) := by
  have hid' : (e'.entering world' intent).id = (e.entering world intent).id :=
    (entering_alike world world' hid).id_eq
  have hrejected : Order.Alike { e.entering world intent with status := .rejected }
      { e'.entering world' intent with status := .rejected } :=
    ⟨hid', rfl, rfl, rfl, rfl, rfl, rfl, rfl, rfl⟩
  exact alike_of_still hplace h.leaves h'.leaves (hid' ▸ .rejected _)
    (.cons (.update (hrejected.rejected h.told h'.told)) .nil) (Counters.apace_event _ _)

theorem duplicate_alike {x : OrderId} (hx : intent.orderId = some x) (hvalid : e.Valid intent)
    (hvalid' : e'.Valid intent) (hplace : e'.lookup? intent.symbol = e.lookup? intent.symbol)
    (hlive : e.routes.get? x ≠ none) (hlive' : e'.routes.get? x ≠ none) :
    Turn.AlikeAt (e.deskOf? (.submit world intent)) (e.perform (.submit world intent))
      (e'.perform (.submit world' intent)) := by
  have hleaves {f : Engine} (w : Surroundings) (hvalid : f.Valid intent)
      (hlive : f.routes.get? x ≠ none) : (f.perform (.submit w intent)).Leaves
        (.submitted (.ok (.error ⟨x, .duplicateOrderId x⟩))) [] f.afterDuplicate := by
    have hid : (f.entering w intent).id = x := entering_id w hx
    obtain ⟨hengine, hevents, hanswer⟩ := submit_duplicate w hvalid (hid ▸ hlive)
    rw [hid] at hanswer
    exact ⟨congrArg Answer.submitted hanswer, hevents, hengine⟩
  exact alike_of_still hplace (hleaves world hvalid hlive) (hleaves world' hvalid' hlive')
    (.rejected _) .nil (Counters.apace_arrival _ _)

theorem admitted_alike (hs : e.Sound) (hs' : e'.Sound) (hid : intent.orderId.isSome)
    (hadm : e.Admits world intent i slot) (hadm' : e'.Admits world' intent i slot)
    (hok : ∃ res, (e.submit world intent).answer = .ok res)
    (hok' : ∃ res, (e'.submit world' intent).answer = .ok res) :
    Turn.AlikeAt (e.deskOf? (.submit world intent)) (e.perform (.submit world intent))
      (e'.perform (.submit world' intent)) := by
  have haccepted {f : Engine} {w : Surroundings} (hadm : f.Admits w intent i slot)
      (hok : ∃ res, (f.submit w intent).answer = .ok res) :
      ∃ r, (f.submit w intent).answer = .ok (.ok r) := by
    obtain ⟨res, ha⟩ := hok
    cases res with
    | ok r => exact ⟨r, ha⟩
    | error why => exact absurd hadm (not_admits_of_rejected ha i slot)
  obtain ⟨r, ha⟩ := haccepted hadm hok
  obtain ⟨r', ha'⟩ := haccepted hadm' hok'
  obtain ⟨_, _, d, hadm₁, hexec, hengine, hevents⟩ := submit_of_ok hs ha
  obtain ⟨_, _, d', hadm₂, hexec', hengine', hevents'⟩ := submit_of_ok hs' ha'
  cases hadm.found.symm.trans hadm₁.found
  cases hadm'.found.symm.trans hadm₂.found
  obtain ⟨hr, hdesk⟩ := Desk.execute_alike (hadm.enters hs.toInOrder) (hadm'.enters hs'.toInOrder)
    (entering_alike world world' hid) rfl rfl rfl hexec hexec'
  exact alike_of_desks hadm.found (slot_of_lookup? hadm.found : (e.received i _).slots[i]? = _)
    (slot_of_lookup? hadm'.found : (e'.received i _).slots[i]? = _)
    ⟨congrArg Answer.submitted ha, hevents, hengine⟩
    ⟨congrArg Answer.submitted ha', hevents', hengine'⟩ (.accepted hr) hdesk
    (Counters.apace_arrival _ _)

theorem submit_alike (h : e.Steady p bound off count) (h' : e'.Steady p bound' off' count')
    {x : OrderId} (hx : intent.orderId = some x)
    (hplace : e'.lookup? intent.symbol = e.lookup? intent.symbol)
    (hlive : e.Valid intent → ((e'.routes.get? x).isSome ↔ (e.routes.get? x).isSome))
    (hok : ∃ res, (e.submit world intent).answer = .ok res)
    (hok' : ∃ res, (e'.submit world' intent).answer = .ok res) :
    Turn.AlikeAt (e.deskOf? (.submit world intent)) (e.perform (.submit world intent))
      (e'.perform (.submit world' intent)) := by
  have hid : intent.orderId.isSome := Option.isSome_iff_exists.mpr ⟨x, hx⟩
  cases hl : e.lookup? intent.symbol with
  | none =>
      obtain ⟨u, hu⟩ := declines_unlisted world hl
      obtain ⟨u', hu'⟩ := declines_unlisted world' (hplace.trans hl)
      exact declined_alike hu hu' hid hplace
  | some place =>
      obtain ⟨i, slot⟩ := place
      have hl' := hplace.trans hl
      have hslot := slot_of_lookup? hl
      have hslot' := slot_of_lookup? hl'
      cases hc : checkIntent slot.config intent with
      | error o =>
          cases o with
          | fault f => exact absurd hc (checkIntent_ne_fault (h.sound.valid hslot))
          | refusal reason =>
              obtain ⟨u, hu⟩ := declines_objected world hl hc (h.book _ _ hslot).isCrossed_eq
              obtain ⟨u', hu'⟩ := declines_objected world' hl' hc (h'.book _ _ hslot').isCrossed_eq
              exact declined_alike hu hu' hid hplace
      | ok =>
          -- the intent is valid, so all depends on whether its identity is live
          have hvalid : e.Valid intent := ⟨i, slot, hl, hc⟩
          have hlive := hlive hvalid
          cases hroute : e.routes.get? x with
          | none =>
              rw [hroute] at hlive
              have hroute' : e'.routes.get? x = none :=
                Option.not_isSome_iff_eq_none.mp fun hsome => Bool.noConfusion (hlive.mp hsome)
              exact admitted_alike h.sound h'.sound hid
                ⟨hl, hc, (entering_id world hx).symm ▸ hroute⟩
                ⟨hl', hc, (entering_id world' hx).symm ▸ hroute'⟩ hok hok'
          | some route =>
              rw [hroute] at hlive
              exact duplicate_alike hx hvalid ⟨i, slot, hl', hc⟩ hplace
                (by rw [hroute]; exact Option.some_ne_none route)
                (Option.isSome_iff_ne_none.mp (hlive.mpr rfl))

end Submit

theorem cancel_alike (hs : e.Sound) (hs' : e'.Sound) (hlive : e.Live)
    (hplace : e'.locate? id = e.locate? id) (hok : ∃ r, (e.cancel world id).answer = .ok r)
    (hok' : ∃ r, (e'.cancel world' id).answer = .ok r) :
    Turn.AlikeAt (e.deskOf? (.cancel world id)) (e.perform (.cancel world id))
      (e'.perform (.cancel world' id)) := by
  cases hl : e.locate? id with
  | none =>
      exact alike_of_still hplace (leaves_cancel (cancel_not_found hl))
        (leaves_cancel (cancel_not_found (hplace.trans hl))) (.cancelled _) .nil (.refl _ _)
  | some place =>
      obtain ⟨i, slot⟩ := place
      obtain ⟨r, ha⟩ := hok
      obtain ⟨r', ha'⟩ := hok'
      have hl' := hplace.trans hl
      have hslot := (route_of_locate? hl).1
      obtain ⟨d, hcancelled, hengine, hevents⟩ := cancel_of_located hs hl ha
      obtain ⟨d', hcancelled', hengine', hevents'⟩ := cancel_of_located hs' hl' ha'
      obtain ⟨rfl, hdesk⟩ := hcancelled.alike hcancelled'
        (fun y hy => hlive ⟨slot, hslot, hy⟩) rfl rfl rfl
      exact alike_of_desks hl hslot (route_of_locate? hl').1
        ⟨congrArg Answer.cancelled ha, hevents, hengine⟩
        ⟨congrArg Answer.cancelled ha', hevents', hengine'⟩ (.cancelled _) hdesk (.refl _ _)

section Modify

variable {request : ModifyRequest}

theorem modify_not_found (hl : e.locate? id = none) :
    e.modify world id request = ⟨e, .ok .notFound, []⟩ := by
  unfold modify
  rw [hl]

theorem modify_objected {reason : RejectReason} (hl : e.locate? id = some (i, slot))
    (hc : checkRequest slot.config request = .error (.refusal reason)) :
    e.modify world id request =
      ⟨e, .ok (.rejected reason), [.notice (.modifyRejected id reason)]⟩ := by
  unfold modify
  rw [hl]
  dsimp only
  rw [hc]

theorem modify_alike (hs : e.Sound) (hs' : e'.Sound) (hlive : e.Live) (hlive' : e'.Live)
    (hplace : e'.locate? id = e.locate? id) (hok : ∃ r, (e.modify world id request).answer = .ok r)
    (hok' : ∃ r, (e'.modify world' id request).answer = .ok r) :
    Turn.AlikeAt (e.deskOf? (.modify world id request)) (e.perform (.modify world id request))
      (e'.perform (.modify world' id request)) := by
  cases hl : e.locate? id with
  | none =>
      exact alike_of_still hplace (leaves_modify (modify_not_found hl))
        (leaves_modify (modify_not_found (hplace.trans hl))) (.modified .notFound) .nil (.refl _ _)
  | some place =>
      obtain ⟨i, slot⟩ := place
      have hl' := hplace.trans hl
      have hslot := (route_of_locate? hl).1
      have hslot' := (route_of_locate? hl').1
      cases hc : checkRequest slot.config request with
      | error o =>
          cases o with
          | fault f => exact absurd hc (checkRequest_ne_fault (hs.valid hslot))
          | refusal reason =>
              exact alike_of_still hplace (leaves_modify (modify_objected hl hc))
                (leaves_modify (modify_objected hl' hc)) (.modified (.rejected reason)) .nil
                (.refl _ _)
      | ok =>
          obtain ⟨r, ha⟩ := hok
          obtain ⟨r', ha'⟩ := hok'
          have hmod : e.modify world id request =
              e.guarded i slot id (Desk.modifyOrder .priceTime world id request) :=
            hs.rule_eq ▸ modify_of_revises ⟨hl, hc⟩
          have hmod' : e'.modify world' id request =
              e'.guarded i slot id (Desk.modifyOrder .priceTime world' id request) :=
            hs'.rule_eq ▸ modify_of_revises ⟨hl', hc⟩
          obtain ⟨d, hrun, hreply⟩ := guarded_of_ok (hmod ▸ ha)
          obtain ⟨d', hrun', hreply'⟩ := guarded_of_ok (hmod' ▸ ha')
          obtain ⟨hr, hdesk⟩ := Desk.modifyOrder_alike (hs.ready hlive hslot)
            (hs'.ready hlive' hslot') (passed_of_checkRequest hc).1 rfl rfl rfl hrun hrun'
          have hleaves := leaves_modify (hmod.trans hreply)
          have hleaves' := leaves_modify (hmod'.trans hreply')
          rw [events_of_desk] at hleaves hleaves'
          exact alike_of_desks hl hslot hslot' hleaves hleaves' (.modified hr) hdesk (.refl _ _)

end Modify

/-- `perform` answers a call alike, tells of the same, and leaves its slot alike wherever it finds
the same place, and its identity routed or not. -/
theorem perform_alike (h : e.Steady p bound off count) (h' : e'.Steady p bound' off' count')
    (hagain : call.Again call') {x : OrderId} (hx : call.id? = some x)
    (hplace : e'.place? call = e.place? call)
    (hlive : e.Enrols x call → ((e'.routes.get? x).isSome ↔ (e.routes.get? x).isSome))
    (hok : (e.perform call).answer.fault? = none)
    (hok' : (e'.perform call').answer.fault? = none) :
    Turn.AlikeAt (e.deskOf? call) (e.perform call) (e'.perform call') := by
  have hanswered := answered hok
  have hanswered' := answered hok'
  cases hagain with
  | addInstrument config => cases hx
  | submit world world' intent =>
      exact submit_alike h h' hx hplace (fun hvalid => hlive ⟨hvalid, entering_id world hx⟩)
        hanswered hanswered'
  | cancel world world' id =>
      exact cancel_alike h.sound h'.sound h.live hplace hanswered hanswered'
  | modify world world' id request =>
      exact modify_alike h.sound h'.sound h.live h'.live hplace hanswered hanswered'

end Calls

end Engine

end Bourse
