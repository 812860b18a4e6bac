import Bourse.Proofs.Engine.Suited
import Bourse.Proofs.Engine.Twins
import Bourse.Proofs.Run.Priority
import Bourse.Proofs.Run.Uncrossed

/-!
# To be sent in again is to be cancelled and sent in anew

A modification that `Requeues` an order, changing its price or increasing its quantity,
takes the order out, rewrites it and executes it under a new number. A cancellation
followed by a submission goes a longer way: the route is given up and taken again, and the
order is checked as if it were new (`checkIntent_again`). Both ways lead to the same desk,
one with the order and one with a `Twin` of it. From there the executions echo each other
(`Executed.echoes`), so the engines that come out are the same but for what the order has
been through, which is what `Engine.Mirrors` says.
-/

namespace Bourse

/-- The same instrument, and the same book but for the history of the order of an identity. -/
structure Slot.Mirrors (id : OrderId) (s s' : Slot) : Prop where
  config_eq : s'.config = s.config
  book : s.book.Mirrors id s'.book

namespace Engine

/-- The same engine but for the history of the order of an identity (how much of it was asked for
and filled, when it came in, and the arrival that its route remembers) and for what is counted. -/
structure Mirrors (id : OrderId) (e e' : Engine) : Prop where
  rule_eq : e'.rule = e.rule
  slots : List.Forall₂ (Slot.Mirrors id) e.slots e'.slots
  route_eq : ∀ x, x ≠ id → e'.routes.get? x = e.routes.get? x
  routed_eq : (e'.routes.get? id).map Route.slot = (e.routes.get? id).map Route.slot

/-- A modification of a resting order beside its cancellation and a new submission at some time.
They are answered alike and have told alike, but for one update more: that of the cancellation. -/
structure Resends (e : Engine) (o : Order) (now : Timestamp)
    (modification : Reply Fault ModifyResult) (cancellation : Reply Fault CancelResult)
    (submission : Reply Fault (Except Rejection OrderResult)) (r r' : OrderResult)
    (u : OrderUpdate) : Prop where
  modified : modification.answer = .ok (.modified r)
  cancelled : cancellation.answer = .ok (.cancelled { o with status := .cancelled })
  submitted : submission.answer = .ok (.ok r')
  order : r.order.Twin r'.order
  arrival : r.order.sequence = e.counters.arrivals + 1
  stamped : r.order.timestamp = o.timestamp ∧ r'.order.timestamp = now
  trades : List.Forall₂ Trade.Alike r.trades r'.trades
  told : cancellation.events = [.update u]
  shown : u.Shows { o with status := .cancelled }
  events : List.Forall₂ (Event.Mirrors o.id) modification.events submission.events
  engines : modification.engine.Mirrors o.id submission.engine
  counters : submission.engine.counters = { modification.engine.counters with
    events := modification.engine.counters.events + 1 }

/-- An order rests in an engine that so many calls have led to. -/
structure Placed (n : Nat) (e : Engine) (i : Nat) (slot : Slot) (o : Order) : Prop where
  steady : e.SteadyAfter n
  short : n < longRun
  lively : e.Lively
  listed : e.Listed
  suited : e.Suited
  located : e.locate? o.id = some (i, slot)
  holds : slot.book.Holds o

/-- The order has been cancelled at a desk. -/
structure Withdrawn (n : Nat) (e : Engine) (i : Nat) (slot : Slot) (o : Order)
    (cancellation : Reply Fault CancelResult) (d : Desk) (u : OrderUpdate) : Prop where
  steady : (e.leave i d).SteadyAfter (n + 1)
  taken : Book.take o.id slot.book = .ok (some o) d.book
  routes_eq : d.routes = e.routes.erase o.id
  counters_eq : d.counters = { e.counters with events := e.counters.events + 1 }
  cancelled : cancellation.answer = .ok (.cancelled { o with status := .cancelled })
  engine_eq : cancellation.engine = e.leave i d
  told : cancellation.events = [.update u]
  shown : u.Shows { o with status := .cancelled }

/-- The order has been taken out, rewritten and executed at a desk. -/
structure Reentered (n : Nat) (e : Engine) (i : Nat) (slot : Slot) (o : Order)
    (world : Surroundings) (request : ModifyRequest) (modification : Reply Fault ModifyResult)
    (o' : Order) (b : Book) (r : OrderResult) (d : Desk) : Prop where
  steady : (e.leave i d).SteadyAfter (n + 1)
  taken : Book.take o.id slot.book = .ok (some o) b
  departed : Book.Departed o slot.book b
  rewritten : Order.setRemaining request.quantity { o with price := request.price.or o.price } =
    .ok ⟨⟩ o'
  executed : Desk.execute .priceTime world { o' with sequence := e.counters.arrivals + 1 }
    ((e.desk slot.book).rearrived b) = .ok r d
  rerouted : Desk.Rerouted o.id (e.desk slot.book) d
  modified : modification.answer = .ok (.modified r)
  engine_eq : modification.engine = e.leave i d
  events_eq : modification.events = d.emitted

section Resend

variable {n : Nat} {e : Engine} {o : Order} {request : ModifyRequest} {world : Surroundings}
  {i : Nat} {slot : Slot}

namespace Placed

theorem slot_eq (h : Placed n e i slot o) : e.slots[i]? = some slot :=
  (route_of_locate? h.located).1

theorem sound (h : Placed n e i slot o) : slot.book.Sound := h.steady.sound.book h.slot_eq

theorem live (h : Placed n e i slot o) : o.status.isLive = true :=
  h.lively.live ⟨slot, h.slot_eq, h.holds⟩

theorem suits (h : Placed n e i slot o) : o.Suits slot.config :=
  h.suited i slot h.slot_eq o h.holds

theorem ready (h : Placed n e i slot o) : (e.desk slot.book).Ready :=
  h.steady.sound.ready h.lively.live h.slot_eq

/-- What is `Placed` can be cancelled. -/
theorem withdrawn (h : Placed n e i slot o) (world : Surroundings) :
    ∃ d u, Withdrawn n e i slot o (e.cancel world o.id) d u := by
  obtain ⟨hfault, hsteady⟩ := h.steady.next h.short (.cancel world o.id)
  obtain ⟨_, ha⟩ := answered hfault
  change (e.cancel world o.id).engine.SteadyAfter (n + 1) at hsteady
  obtain ⟨reply, hreply, hengine, hanswer, htold⟩ := cancel_run world h.located
  rw [hanswer, hreply] at ha
  obtain ⟨d, hrun, hexclusive⟩ := exclusive_of_ok ha
  rw [hexclusive] at hreply
  cases Desk.cancelled_of_ok h.sound hrun with
  | absent hnot => exact absurd ⟨o, h.holds, rfl⟩ hnot
  | dead hx hid hdead _ =>
      rw [h.sound.eq_of_id hx h.holds hid, h.live] at hdead
      cases hdead
  | @found x u _ _ hx hid _ _ hu hemitted hroutes hcounted htake =>
      obtain rfl := h.sound.eq_of_id hx h.holds hid
      have hevents : d.counters.events + 0 = e.counters.events + d.emitted.length :=
        hcounted.events_eq
      rw [hemitted] at hevents
      rw [hreply] at hengine hanswer htold
      rw [events_of_desk, hemitted] at htold
      rw [hengine] at hsteady
      exact ⟨d, u, hsteady, htake, hroutes,
        Counters.ext hcounted.arrivals_eq hevents hcounted.matchings_eq, hanswer, hengine, htold,
        OrderUpdate.shows_of_ofOrder hu⟩

/-- What is `Placed` can be modified. -/
theorem modified (h : Placed n e i slot o) (world : Surroundings)
    (hchecked : checkRequest slot.config request = .ok ()) :
    ∃ r d, Desk.modifyOrder .priceTime world o.id request (e.desk slot.book) = .ok r d ∧
      e.modify world o.id request = ⟨e.leave i d, .ok r, eventsOf d⟩ := by
  obtain ⟨hfault, -⟩ := h.steady.next h.short (.modify world o.id request)
  obtain ⟨r, ha⟩ := answered hfault
  rw [modify_of_revises ⟨h.located, hchecked⟩, h.steady.sound.rule_eq] at ha ⊢
  obtain ⟨d, hrun, hguarded⟩ := guarded_of_ok ha
  exact ⟨r, d, hrun, hguarded⟩

/-- A request that `Requeues` what rests sends it in again. -/
theorem reentered (h : Placed n e i slot o) (world : Surroundings)
    (hchecked : checkRequest slot.config request = .ok ()) (hq : request.Requeues o) :
    ∃ o' b r d,
      Reentered n e i slot o world request (e.modify world o.id request) o' b r d := by
  obtain ⟨-, hsteady⟩ := h.steady.next h.short (.modify world o.id request)
  change (e.modify world o.id request).engine.SteadyAfter (n + 1) at hsteady
  have hnot := requeues_iff.mp hq
  obtain ⟨r, d, hrun, hmodify⟩ := h.modified world hchecked
  rw [hmodify] at hsteady ⊢
  have hmod := Desk.modified_of_ok h.sound hrun
  have hrerouted := hmod.rerouted h.ready (passed_of_checkRequest hchecked).1 ⟨o, h.holds, rfl⟩
  cases hmod with
  | absent hgone => exact absurd ⟨o, h.holds, rfl⟩ hgone
  | same hx hid hprice hquantity =>
      obtain rfl := h.sound.eq_of_id hx h.holds hid
      exact absurd ⟨hprice, Int.le_of_eq hquantity⟩ hnot
  | lessened hx hid hprice hless _ _ _ _ _ _ _ =>
      obtain rfl := h.sound.eq_of_id hx h.holds hid
      exact absurd ⟨hprice, Int.le_of_lt hless⟩ hnot
  | @requeued x o' b r _ hx hid _ htake hdep hset hexec =>
      obtain rfl := h.sound.eq_of_id hx h.holds hid
      exact ⟨o', b, r, d, hsteady, htake, hdep, hset, hexec, hrerouted, rfl, rfl,
        events_of_desk _ _ _⟩

/-- What suits its instrument finds it again by `lookup?` once it is cancelled, and its identity is
free. -/
theorem found_again {d : Desk} (h : Placed n e i slot o) (hroutes : d.routes = e.routes.erase o.id)
    (request : ModifyRequest) :
    (e.leave i d).lookup? (o.again request).symbol = some (i, { slot with book := d.book }) ∧
      (e.leave i d).routes.get? o.id = none := by
  have hleft : (e.leave i d).slots[i]? = some { slot with book := d.book } := by
    rw [slots_leave h.slot_eq, if_pos rfl]
  have hfound := (h.listed.of_configs (configs_leave e i d)).lookup?_eq hleft
  constructor
  · rw [show (o.again request).symbol = slot.config.symbol from h.suits.symbol_eq]
    exact hfound
  · change d.routes.get? o.id = none
    rw [hroutes]
    exact Table.get?_erase_self _ _

end Placed

/-- The order that is sent in again and the one that is sent in anew are each other's `Twin`. -/
theorem twin_again {d : Desk} {o' : Order} (hsuits : o.Suits slot.config)
    (hlive : o.status.isLive = true)
    (hset : Order.setRemaining request.quantity { o with price := request.price.or o.price } =
      .ok ⟨⟩ o') (harrivals : d.counters.arrivals = e.counters.arrivals) (world : Surroundings) :
    Order.Twin { o' with sequence := e.counters.arrivals + 1 }
      ((e.leave i d).entering world (o.again request)) := by
  obtain ⟨_, _, -, -, rfl⟩ := Order.setRemaining_eq_ok hset
  obtain ⟨htype, htime⟩ := hsuits.waits
  exact ⟨rfl, rfl, rfl, htype.symm, htime.symm, rfl, rfl,
    congrArg Nat.succ harrivals, hlive.symm⟩

theorem forall₂_modify {α : Type} {R : α → α → Prop} (hrefl : ∀ a, R a a) {f g : α → α}
    (hfg : ∀ a, R (f a) (g a)) (l : List α) (i : Nat) :
    List.Forall₂ R (l.modify i f) (l.modify i g) := by
  induction l generalizing i with
  | nil => cases i <;> exact .nil
  | cons a rest ih =>
      cases i with
      | zero => exact .cons (hfg a) (List.forall₂_same.mpr fun x _ => hrefl x)
      | succ i => exact .cons (hrefl a) (ih i)

/-- Two ways from one desk to books that mirror each other leave engines that do (`Engine.Mirrors`).
-/
theorem mirrors_leave {id : OrderId} {d c d' : Desk} (hslot : e.slots[i]? = some slot)
    (hdep : ∀ x, c.book.Has x ↔ slot.book.Has x ∧ x ≠ id)
    (hroutes : c.routes = e.routes.erase id)
    (hd : Desk.Rerouted id (e.desk slot.book) d)
    (hd' : Desk.Rerouted id (((e.leave i c).received i id).desk c.book) d')
    (hbook : d.book.Mirrors id d'.book) (hs : (e.leave i d).Sound)
    (hs' : (((e.leave i c).received i id).leave i d').Sound) :
    (e.leave i d).Mirrors id (((e.leave i c).received i id).leave i d') := by
  have hleft : (e.leave i d).slots[i]? = some { slot with book := d.book } := by
    rw [slots_leave hslot, if_pos rfl]
  have hleft₁ : (e.leave i c).slots[i]? = some { slot with book := c.book } := by
    rw [slots_leave hslot, if_pos rfl]
  have hleft' : (((e.leave i c).received i id).leave i d').slots[i]? =
      some { slot with book := d'.book } := by
    rw [slots_leave (e := (e.leave i c).received i id) hleft₁, if_pos rfl]
  have hhas (x : OrderId) : d'.book.Has x ↔ d.book.Has x :=
    hbook.has_iff (hs.book hleft) (hs'.book hleft') x
  refine ⟨rfl, ?_, fun x hx => ?_, ?_⟩
  · change List.Forall₂ _ (e.slots.modify i _) ((e.slots.modify i _).modify i _)
    rw [List.modify_modify_eq]
    exact forall₂_modify (fun s => ⟨rfl, .refl id s.book⟩) (fun s => ⟨rfl, hbook⟩) _ _
  · change d'.routes.get? x = d.routes.get? x
    have hstart : (((e.leave i c).received i id).desk c.book).routes.get? x = e.routes.get? x := by
      change (c.routes.insert id _).get? x = _
      rw [Table.get?_insert_of_ne _ hx, hroutes, Table.get?_erase_of_ne _ hx]
    -- On both ways what rests now has kept its route, what rested only before has lost it, and what
    -- never rested was left alone.
    by_cases hrests : d.book.Has x
    · rw [hd.kept x (Or.inl hrests), hd'.kept x (Or.inl ((hhas x).mpr hrests)), hstart]
      rfl
    · have hrests' : ¬ d'.book.Has x := fun h => hrests ((hhas x).mp h)
      by_cases hbefore : slot.book.Has x
      · rw [hd.freed x (Or.inr hbefore) hrests,
          hd'.freed x (Or.inr ((hdep x).mpr ⟨hbefore, hx⟩)) hrests']
      · rw [hd.kept x (Or.inr ⟨hx, hbefore⟩),
          hd'.kept x (Or.inr ⟨hx, fun h => hbefore ((hdep x).mp h).1⟩), hstart]
        rfl
  · by_cases hrests : d.book.Has id
    · obtain ⟨x, hx, rfl⟩ := hrests
      obtain ⟨x', hx', hid⟩ := (hhas x.id).mpr ⟨x, hx, rfl⟩
      obtain ⟨route, hroute, hi⟩ := hs.routed ⟨_, hleft, hx⟩
      obtain ⟨route', hroute', hi'⟩ := hs'.routed ⟨_, hleft', hx'⟩
      rw [hid] at hroute'
      rw [hroute, hroute', Option.map_some, Option.map_some, hi, hi']
    · have hfreed : (e.leave i d).routes.get? id = none := hd.freed id (Or.inl rfl) hrests
      have hfreed' : (((e.leave i c).received i id).leave i d').routes.get? id = none :=
        hd'.freed id (Or.inl rfl) fun h => hrests ((hhas id).mp h)
      rw [hfreed, hfreed']

/-- What `locate?` finds is rejected for what `checkRequest` says. -/
theorem modify_rejected_iff (hs : e.Sound) {id : OrderId} (hloc : e.locate? id = some (i, slot))
    {reason : RejectReason} :
    (e.modify world id request).answer = .ok (.rejected reason) ↔
      checkRequest slot.config request = .error (.refusal reason) := by
  constructor
  · intro ha
    cases hc : checkRequest slot.config request with
    | ok =>
        rw [modify_of_revises ⟨hloc, hc⟩, hs.rule_eq] at ha
        obtain ⟨d, hrun, -⟩ := guarded_of_ok ha
        cases Desk.modified_of_ok (hs.book (route_of_locate? hloc).1) hrun
    | error why =>
        unfold Engine.modify at ha
        rw [hloc] at ha
        dsimp only at ha
        rw [hc] at ha
        cases why with
        | fault f => cases ha
        | refusal reason' =>
            cases ha
            rfl
  · intro hc
    unfold Engine.modify
    rw [hloc]
    dsimp only
    rw [hc]

/-- What is for a listed instrument, under an identity that is free, is rejected for what
`checkIntent` says. -/
theorem submit_rejected_iff (hs : e.Sound) {intent : OrderIntent}
    (hfound : e.lookup? intent.symbol = some (i, slot))
    (hfree : e.routes.get? (e.entering world intent).id = none)
    (huncrossed : slot.book.isCrossed = false) {reason : RejectReason} :
    (e.submit world intent).answer = .ok (.error ⟨(e.entering world intent).id, reason⟩) ↔
      checkIntent slot.config intent = .error (.refusal reason) := by
  have hrefused {reason' : RejectReason}
      (hc : checkIntent slot.config intent = .error (.refusal reason')) :
      (e.submit world intent).answer = .ok (.error ⟨(e.entering world intent).id, reason'⟩) := by
    obtain ⟨-, -, -, ⟨-, hanswer⟩ | ⟨-, hcrossed, -⟩⟩ := submit_objected world hfound hc
    · exact hanswer
    · rw [huncrossed] at hcrossed
      cases hcrossed
  refine ⟨fun ha => ?_, hrefused⟩
  cases hc : checkIntent slot.config intent with
  | ok => exact absurd ⟨hfound, hc, hfree⟩ (not_admits_of_rejected ha i slot)
  | error why =>
      cases why with
      | fault f => exact absurd hc (checkIntent_ne_fault (hs.valid (slot_of_lookup? hfound)))
      | refusal reason' =>
          rw [hrefused hc] at ha
          cases ha
          rfl

/-- Once one of two twins has been executed and its book left uncrossed, an intent that becomes the
other is admitted to the same book and accepted. -/
theorem submit_of_twin {x : Order} {d₀ d : Desk} {r : OrderResult} {intent : OrderIntent}
    {world' : Surroundings} (hs : e.Sound) (ha : e.Admits world intent i slot)
    (hexec : Desk.Executed world' x d₀ r d) (hd₀ : d₀.book.Sound) (hemitted : d₀.emitted = [])
    (htwin : x.Twin (e.entering world intent)) (hbook : slot.book = d₀.book)
    (huncrossed : d.book.isCrossed = false) :
    ∃ r' d', Desk.Echoes x.id r d r' d' ∧
      Desk.execute .priceTime world (e.entering world intent)
        ((e.received i (e.entering world intent).id).desk slot.book) = .ok r' d' ∧
      (e.submit world intent).answer = .ok (.ok r') ∧
      (e.submit world intent).engine = (e.received i (e.entering world intent).id).leave i d' ∧
      (e.submit world intent).events = d'.emitted := by
  have hent := ha.enters hs.toInOrder
  have hslot := slot_of_lookup? ha.found
  obtain ⟨r', d', hrun⟩ :=
    hexec.twin_isOk world htwin hbook hent fun y hy => hs.sized ⟨slot, hslot, hy⟩
  have hechoes :=
    hexec.echoes (Desk.executed_of_ok hent.sound hrun) htwin hbook hd₀ hemitted rfl
  obtain ⟨reply, hreply, hengine, hanswer, hevents⟩ := submit_of_admits ha
  rw [hs.rule_eq,
    guarded_of_uncrossed hrun (hechoes.book.isCrossed_eq.trans huncrossed)] at hreply
  refine ⟨r', d', hechoes, hrun, ?_, ?_, ?_⟩
  · rw [hanswer, hreply]
    rfl
  · rw [hengine, hreply]
  · rw [hevents, hreply, events_of_desk]

/-- To be sent in again comes to the same as to be cancelled and sent in anew. -/
theorem Placed.resends (h : Placed n e i slot o)
    (hchecked : checkRequest slot.config request = .ok ()) (hq : request.Requeues o)
    (world world₁ world₂ : Surroundings) :
    ∃ r r' u, e.Resends o world₂.now (e.modify world o.id request) (e.cancel world₁ o.id)
      ((e.cancel world₁ o.id).engine.submit world₂ (o.again request)) r r' u := by
  obtain ⟨o', b, r, d, hre⟩ := h.reentered world hchecked hq
  obtain ⟨c, u, hwith⟩ := h.withdrawn world₁
  -- Both ways take the order out of the same book.
  have htake := hwith.taken
  rw [hre.taken] at htake
  injection htake with _ hcb
  subst hcb
  have hpos := (passed_of_checkRequest hchecked).1
  have hent := h.ready.enters h.holds (Int.le_of_lt hpos) hre.departed hre.rewritten
  have hexecuted := Desk.executed_of_ok hent.sound hre.executed
  have hs₁ := hwith.steady.sound
  obtain ⟨hfound, hfree⟩ := h.found_again hwith.routes_eq request
  have hadm : (e.leave i c).Admits world₂ (o.again request) i { slot with book := c.book } :=
    ⟨hfound, (h.suits.checkIntent_again request).trans hchecked, hfree⟩
  have hent' := hadm.enters hs₁.toInOrder
  have harrivals : c.counters.arrivals = e.counters.arrivals := by rw [hwith.counters_eq]
  have htwin := twin_again (i := i) h.suits h.live hre.rewritten harrivals world₂
  have hleft : (e.leave i d).slots[i]? = some { slot with book := d.book } := by
    rw [slots_leave h.slot_eq, if_pos rfl]
  obtain ⟨r', d', hechoes, hrun, hanswer, hengine, htold⟩ :=
    submit_of_twin hs₁ hadm hexecuted hent.sound rfl htwin rfl
      (hre.steady.book _ _ hleft).isCrossed_eq
  have hexecuted' := Desk.executed_of_ok hent'.sound hrun
  have hcame := Order.same_of_setRemaining hre.rewritten
  have hsame := hexecuted.same hent.sound
  have hstamped := (hexecuted'.same hent'.sound).timestamp_eq
  have hbook : d.book.Mirrors o.id d'.book := hcame.id_eq ▸ hechoes.book
  have hevents : List.Forall₂ (Event.Mirrors o.id) d.emitted d'.emitted :=
    hcame.id_eq ▸ hechoes.events
  have hrerouted := Desk.rerouted_of_execute hent' hpos hrun
  have hs₂ := submit_sound hs₁ world₂ (o.again request)
  rw [hengine] at hs₂
  have hcounters : d'.counters = { d.counters with events := d.counters.events + 1 } := by
    refine hexecuted.counters_eq hexecuted' htwin rfl rfl rfl hevents.length_eq ?_
    change { c.counters with arrivals := c.counters.arrivals + 1 } = _
    rw [hwith.counters_eq]
    rfl
  rw [hwith.engine_eq]
  refine ⟨r, r', u, hre.modified, hwith.cancelled, hanswer, hechoes.order, hsame.sequence_eq,
    ⟨hsame.timestamp_eq.trans hcame.timestamp_eq, hstamped⟩, hechoes.trades, hwith.told,
    hwith.shown, ?_, ?_, ?_⟩
  · rw [hre.events_eq, htold]
    exact hevents
  · rw [hre.engine_eq, hengine]
    exact mirrors_leave h.slot_eq (fun x => hre.departed.has_iff) hwith.routes_eq hre.rerouted
      hrerouted hbook hre.steady.sound hs₂
  · rw [hre.engine_eq, hengine]
    exact hcounters

/-- A request is rejected for the same reasons as the submission of the order that it asks for with
`again`. -/
theorem Placed.rejected_alike (h : Placed n e i slot o) (request : ModifyRequest)
    (world world₁ world₂ : Surroundings) (reason : RejectReason) :
    (e.modify world o.id request).answer = .ok (.rejected reason) ↔
      ((e.cancel world₁ o.id).engine.submit world₂ (o.again request)).answer =
        .ok (.error ⟨o.id, reason⟩) := by
  obtain ⟨c, u, hwith⟩ := h.withdrawn world₁
  have hsteady := hwith.steady
  obtain ⟨hfound, hfree⟩ := h.found_again hwith.routes_eq request
  have hleft := slot_of_lookup? hfound
  rw [hwith.engine_eq, modify_rejected_iff h.steady.sound h.located,
    ← h.suits.checkIntent_again request]
  exact (submit_rejected_iff hsteady.sound hfound hfree (hsteady.book _ _ hleft).isCrossed_eq).symm

end Resend

/-- A call that comes to its end leaves every order to rest where it `Suits` the instrument. -/
theorem perform_suited {e : Engine} (h : e.Suited) (hs : e.Sound) (hl : e.Lively) (call : Call)
    (hok : (e.perform call).answer.fault? = none) : (e.perform call).after.Suited := by
  refine perform_of_answered (P := fun t => t.after.Suited) ?_ ?_ ?_ ?_ hok
  · exact fun config => h.addInstrument config
  · exact fun _ _ _ ha => h.submit hs ha
  · exact fun _ _ _ ha => h.cancel hs ha
  · exact fun _ _ _ _ ha => h.modify hs hl ha

end Engine

theorem History.suited {past : List Turn} {e : Engine} (h : Run past e) (hok : Faultless past) :
    e.Suited :=
  History.invariant (P := fun _ => Engine.Suited) (Engine.Each.empty _ _)
    (fun _ _ call hsuited hs hl => Engine.perform_suited hsuited hs hl call) h hok

/-- What a run shows by `order?` rests in an engine that its calls have led to. -/
theorem History.placed {past : List Turn} {e : Engine} {id : OrderId} {o : Order} (h : Run past e)
    (hlen : past.length < longRun) (ho : e.order? id = some o) :
    ∃ i slot, o.id = id ∧ Engine.Placed past.length e i slot o := by
  obtain ⟨hok, hst⟩ := h.steady hlen
  obtain ⟨hs, hl, -⟩ := h.orderly hok
  obtain ⟨⟨i, hrests⟩, hid⟩ := (Engine.order?_iff hs).mp ho
  obtain ⟨slot, hloc, hholds⟩ := Engine.locate?_of_rests hs hrests
  exact ⟨i, slot, hid, hst, hlen, hl, h.listed, h.suited hok, hloc, hholds⟩

/-- To send an order in again comes to the same as to cancel it and to send it in anew, under its
identity and at the price and in the quantity asked for. A request is rejected for the reasons for
which that submission is; and one that changes the price of the order or increases its quantity is
carried out with the same trades, under the same arrival number, and leaves the same books and the
same identities routed. What differs is what the order has been through (its status, the quantity
it was once asked for in, and its time), the arrival in its route, and the update that tells of
the cancellation and takes a number of its own. -/
theorem requeue_is_cancel_and_submit {past : List Turn} {e : Engine} {id : OrderId} {o : Order}
    (h : Run past e) (hlen : past.length < 10000000000) (ho : e.order? id = some o)
    (request : ModifyRequest) (world world₁ world₂ : Surroundings) :
    (∀ reason, (e.modify world id request).answer = .ok (.rejected reason) ↔
      ((e.cancel world₁ id).engine.submit world₂ (o.again request)).answer =
        .ok (.error ⟨id, reason⟩)) ∧
    (∀ i slot, e.Revises id request i slot → request.Requeues o →
      ∃ r r' u, e.Resends o world₂.now (e.modify world id request) (e.cancel world₁ id)
        ((e.cancel world₁ id).engine.submit world₂ (o.again request)) r r' u) := by
  obtain ⟨i, slot, rfl, hplaced⟩ := h.placed hlen ho
  refine ⟨hplaced.rejected_alike request world world₁ world₂, fun j slot' hrev hq => ?_⟩
  have hfound := hrev.found
  rw [hplaced.located] at hfound
  cases hfound
  exact hplaced.resends hrev.checked hq world world₁ world₂

/-- Two sellers ask for 2 and for 3, and a buyer bids 1. -/
def gap : List Call :=
  [.addInstrument (.plain "X"),
    .submit (.handing 1) (.limit "X" .sell (.scaled 2 0) 1),
    .submit (.handing 2) (.limit "X" .sell (.scaled 3 0) 1),
    .submit (.handing 3) (.limit "X" .buy 1 1)]

/-- What the calls have led to. -/
def gapped : Engine := ((Engine.empty .priceTime).follow [] gap).2

/-- The identity of the buyer. -/
def bidder : OrderId := ⟨.ofNat 3⟩

/-- The buyer bids 3 for three instead. -/
def raise : ModifyRequest := ⟨some (.scaled 3 0), .scaled 3 0⟩

/-- The time at which that happens. -/
def midnight : Surroundings := .handing 0

/-- The buyer trades with both sellers, whose levels are used up, and the rest of what is asked for
waits at the new price. -/
theorem requeue_is_cancel_and_submit_gap :
    (∃ o r r' u, gapped.Resends o midnight.now (gapped.modify midnight bidder raise)
        (gapped.cancel midnight bidder)
        ((gapped.cancel midnight bidder).engine.submit midnight (o.again raise)) r r' u) ∧
      (gapped.perform (.modify midnight bidder raise)).trades.map
          (fun t => (t.maker, t.price, t.quantity)) =
        [(⟨⟨1, by decide⟩⟩, .whole 2 (by decide), 1),
          (⟨⟨2, by decide⟩⟩, .whole 3 (by decide), 1)] ∧
      ((gapped.perform (.modify midnight bidder raise)).after.order? bidder).map
          (fun o => (o.price, o.remaining)) = some (some (.whole 3 (by decide)), 1) := by
  have hrun : Run ((Engine.empty .priceTime).follow [] gap).1 gapped := History.start.follow gap
  have hlen : ((Engine.empty .priceTime).follow [] gap).1.length = 4 := by decide +kernel
  have hlocated : (gapped.locate? bidder).map
      (fun place => Engine.checkRequest place.2.config raise) = some (.ok ()) := by
    decide +kernel
  have hshown : (gapped.order? bidder).map (fun o => decide (raise.Requeues o)) = some true := by
    decide +kernel
  refine ⟨?_, by decide +kernel, by decide +kernel⟩
  generalize gapped = e at hrun hlocated hshown ⊢
  obtain ⟨place, hfound, hchecked⟩ := Option.map_eq_some_iff.mp hlocated
  obtain ⟨o, ho, hrequeues⟩ := Option.map_eq_some_iff.mp hshown
  obtain ⟨r, r', u, hresends⟩ :=
    (requeue_is_cancel_and_submit hrun (by rw [hlen]; decide) ho raise midnight midnight
      midnight).2 place.1 place.2 ⟨hfound, hchecked⟩ (of_decide_eq_true hrequeues)
  exact ⟨o, r, r', u, hresends⟩

end Bourse
