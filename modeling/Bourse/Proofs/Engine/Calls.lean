import Bourse.Proofs.Engine.Basic
import Bourse.Proofs.Engine.Checks

/-!
# Calls

Each call of an engine run from its first check to its reply. A call either passes its
checks, as `Admits` and `Revises` state them, and works at the desk of one slot, or it
leaves books and routes as they are. Work at a desk is `exclusive`, or `guarded` where an
identity has been routed for it; what either comes to is said once, and the calls are read
off that.
-/

namespace Bourse

namespace Engine

section Find

variable {e : Engine} {i : Nat} {slot : Slot}

theorem slot_of_lookup? {symbol : String} (h : e.lookup? symbol = some (i, slot)) :
    e.slots[i]? = some slot := by
  unfold lookup? at h
  cases hi : e.slots.findIdx? (fun slot => decide (slot.config.symbol = symbol)) with
  | none => rw [hi] at h; cases h
  | some j =>
      rw [hi] at h
      change (e.slots[j]?).bind (fun slot => some (j, slot)) = some (i, slot) at h
      cases hs : e.slots[j]? with
      | none => rw [hs] at h; cases h
      | some s =>
          rw [hs] at h
          cases h
          exact hs

theorem route_of_locate? {id : OrderId} (h : e.locate? id = some (i, slot)) :
    e.slots[i]? = some slot ∧ ∃ r, e.routes.get? id = some r ∧ r.slot = i := by
  unfold locate? at h
  cases hr : e.routes.get? id with
  | none => rw [hr] at h; cases h
  | some r =>
      rw [hr] at h
      change (e.slots[r.slot]?).bind (fun slot => some (r.slot, slot)) = some (i, slot) at h
      cases hs : e.slots[r.slot]? with
      | none => rw [hs] at h; cases h
      | some s =>
          rw [hs] at h
          cases h
          exact ⟨hs, r, rfl, rfl⟩

theorem locate?_of_rests (h : e.Sound) {o : Order} (ho : e.Rests i o) :
    ∃ slot, e.locate? o.id = some (i, slot) ∧ slot.book.Holds o := by
  obtain ⟨r, hr, rfl⟩ := h.routed ho
  obtain ⟨slot, hslot, hh⟩ := ho
  refine ⟨slot, ?_, hh⟩
  unfold locate?
  rw [hr]
  change (e.slots[r.slot]?).bind (fun slot => some (r.slot, slot)) = _
  rw [hslot]
  rfl

/-- The orders that `order?` shows are those that rest. -/
theorem order?_iff (h : e.Sound) {id : OrderId} {o : Order} :
    e.order? id = some o ↔ (∃ i, e.Rests i o) ∧ o.id = id := by
  unfold order?
  constructor
  · intro ho
    cases hl : e.locate? id with
    | none => rw [hl] at ho; cases ho
    | some place =>
        rw [hl] at ho
        obtain ⟨hslot, -⟩ := route_of_locate? hl
        obtain ⟨hh, hid⟩ := (h.book hslot).get?_iff.mp ho
        exact ⟨⟨place.1, place.2, hslot, hh⟩, hid⟩
  · rintro ⟨⟨i, ho⟩, rfl⟩
    obtain ⟨slot, hl, hh⟩ := locate?_of_rests h ho
    rw [hl]
    exact (h.book (route_of_locate? hl).1).get?_eq hh

end Find

/-! ## A desk to oneself -/

section Desk

variable {α : Type} (e : Engine) (i : Nat) (slot : Slot) (id : OrderId) (act : Attempt Desk α)

theorem atRest_run (act : Attempt Desk α) (d : Desk) :
    Desk.atRest act d =
      match act d with
      | .error f d' => .error f d'
      | .ok a d' =>
        if d'.book.isCrossed then .error (.crossedAtRest d'.book.symbol) d' else .ok a d' := by
  unfold Desk.atRest
  rw [Attempt.run_bind]
  cases act d with
  | error f d' => rfl
  | ok a d' =>
      dsimp only
      rw [Attempt.run_bind, Attempt.run_get]
      dsimp only
      split <;> rfl

/-- To be checked by `atRest` does not change what is on a desk. -/
theorem atRest_outcome (act : Attempt Desk α) (d : Desk) :
    (Attempt.outcome (Desk.atRest act) d).2 = (Attempt.outcome act d).2 := by
  unfold Attempt.outcome
  rw [atRest_run]
  cases act d with
  | error f d' => rfl
  | ok a d' =>
      by_cases hc : d'.book.isCrossed = true <;> simp [hc]

theorem atRest_eq_ok {a : α} {d d' : Desk} (h : Desk.atRest act d = .ok a d') :
    act d = .ok a d' := by
  rw [atRest_run] at h
  cases hrun : act d with
  | error f d₁ =>
      rw [hrun] at h
      cases h
  | ok b d₁ =>
      rw [hrun] at h
      dsimp only at h
      split at h
      · cases h
      · cases h
        rfl

theorem exclusive_run :
    e.exclusive i slot act =
      match act (e.desk slot.book) with
      | .error f d => ⟨e.leave i d, .error f, faultNotices f⟩
      | .ok a d =>
        if d.book.isCrossed then ⟨e.leave i d, .error (.crossedAtRest d.book.symbol), []⟩
        else ⟨e.leave i d, .ok a, eventsOf d⟩ := by
  unfold exclusive
  rw [atRest_run]
  cases act (e.desk slot.book) with
  | error f d => rfl
  | ok a d =>
      dsimp only
      by_cases hc : d.book.isCrossed = true
      · rw [if_pos hc, if_pos hc]
        rfl
      · rw [if_neg hc, if_neg hc]

/-- A desk after a fault: an identity that rests in the book keeps its route. -/
def spared (d : Desk) : Desk := if d.book.contains id then d else d.release id

theorem spared_same (id : OrderId) (d : Desk) :
    (spared id d).book = d.book ∧ (spared id d).counters = d.counters := by
  unfold spared
  split <;> exact ⟨rfl, rfl⟩

theorem guarded_run :
    e.guarded i slot id act =
      match act (e.desk slot.book) with
      | .error f d => ⟨e.leave i (spared id d), .error f,
          faultNotices f ++ [.notice (.operationAborted slot.config.symbol id)]⟩
      | .ok a d =>
        if d.book.isCrossed then ⟨e.leave i (spared id d), .error (.crossedAtRest d.book.symbol),
          [.notice (.operationAborted slot.config.symbol id)]⟩
        else ⟨e.leave i d, .ok a, eventsOf d⟩ := by
  unfold guarded
  rw [atRest_run]
  cases act (e.desk slot.book) with
  | error f d => rfl
  | ok a d =>
      dsimp only
      by_cases hc : d.book.isCrossed = true
      · rw [if_pos hc, if_pos hc]
        rfl
      · rw [if_neg hc, if_neg hc]

/-- What the work has left is put back by `exclusive`, whatever has stopped the work. -/
theorem exclusive_outcome :
    (e.exclusive i slot act).engine = e.leave i (Attempt.outcome act (e.desk slot.book)).2 := by
  rw [exclusive_run]
  cases hrun : act (e.desk slot.book) with
  | error f d => rw [Attempt.outcome_error hrun]
  | ok a d =>
      rw [Attempt.outcome_ok hrun]
      dsimp only
      split <;> rfl

/-- `guarded` puts the same back, but the identity may have lost its route. -/
theorem guarded_outcome :
    ∃ d, (e.guarded i slot id act).engine = e.leave i d ∧
      (d = (Attempt.outcome act (e.desk slot.book)).2 ∨
        d = spared id (Attempt.outcome act (e.desk slot.book)).2) := by
  rw [guarded_run]
  cases hrun : act (e.desk slot.book) with
  | error f d =>
      rw [Attempt.outcome_error hrun]
      exact ⟨spared id d, rfl, Or.inr rfl⟩
  | ok a d =>
      rw [Attempt.outcome_ok hrun]
      dsimp only
      split
      · exact ⟨spared id d, rfl, Or.inr rfl⟩
      · exact ⟨d, rfl, Or.inl rfl⟩

theorem guarded_book :
    ∃ d, (e.guarded i slot id act).engine = e.leave i d ∧
      d.book = (Attempt.outcome act (e.desk slot.book)).2.book := by
  obtain ⟨d, hengine, rfl | rfl⟩ := guarded_outcome e i slot id act
  · exact ⟨_, hengine, rfl⟩
  · exact ⟨_, hengine, (spared_same id _).1⟩

end Desk

section Sound

variable {α : Type} {e : Engine} {i : Nat} {slot : Slot} {id : OrderId}

/-- To take the route of an identity that does not rest, as `spared` does, does no harm. -/
theorem spared_worked {New : Order → Prop} {d d' : Desk} (h : Desk.Worked id New d d') :
    Desk.Worked id New d (spared id d') := by
  unfold spared
  split
  · exact h
  · next hc =>
      refine ⟨h.sound, h.holds, h.arrivals_le, fun x hx => ?_⟩
      have hne : x ≠ id := by
        rcases hx with hx | hx
        · exact fun hid => hc (h.sound.contains_iff.mpr (hid ▸ hx))
        · exact hx.1
      exact (Table.get?_erase_of_ne _ hne).trans (h.route_eq x hx)

theorem InOrder.exclusive (h : e.InOrder) (hslot : e.slots[i]? = some slot)
    (hroute : ∃ r, e.routes.get? id = some r ∧ r.slot = i) {act : Attempt Desk α}
    (hw : match act (e.desk slot.book) with
      | .error _ d | .ok _ d => Desk.Worked id (Desk.Welcome id d) (e.desk slot.book) d) :
    (e.exclusive i slot act).engine.InOrder := by
  rw [exclusive_run]
  cases hrun : act (e.desk slot.book) with
  | error f d =>
      rw [hrun] at hw
      exact h.leave hslot hroute hw
  | ok a d =>
      rw [hrun] at hw
      dsimp only
      split <;> exact h.leave hslot hroute hw

theorem InOrder.guarded (h : e.InOrder) (hslot : e.slots[i]? = some slot)
    (hroute : ∃ r, e.routes.get? id = some r ∧ r.slot = i) {act : Attempt Desk α}
    (hw : match act (e.desk slot.book) with
      | .error _ d | .ok _ d => Desk.Worked id (Desk.Welcome id d) (e.desk slot.book) d) :
    (e.guarded i slot id act).engine.InOrder := by
  have hspared {d : Desk} (hw : Desk.Worked id (Desk.Welcome id d) (e.desk slot.book) d) :
      (e.leave i (spared id d)).InOrder := by
    refine h.leave hslot hroute ((spared_worked hw).mono fun x hx => ⟨hx.id_eq, ?_, hx.sized⟩)
    rw [(spared_same id d).2]
    exact hx.early
  rw [guarded_run]
  cases hrun : act (e.desk slot.book) with
  | error f d =>
      rw [hrun] at hw
      exact hspared hw
  | ok a d =>
      rw [hrun] at hw
      dsimp only
      split
      · exact hspared hw
      · exact h.leave hslot hroute hw

end Sound

end Engine

/-- The event among what is put out. -/
def Output.event? : Output → Option Event
  | .event e => some e
  | .notice _ => none

/-- The events a reply sends, in their order. -/
def Reply.events {ε α : Type} (r : Reply ε α) : List Event := r.output.filterMap Output.event?

namespace Engine

theorem events_eventsOf (d : Desk) : (eventsOf d).filterMap Output.event? = d.emitted := by
  unfold eventsOf
  rw [List.filterMap_map]
  exact List.filterMap_some

theorem events_faultNotices (f : Fault) : (faultNotices f).filterMap Output.event? = [] := by
  cases f <;> rfl

/-! ## Listing an instrument -/

section AddInstrument

variable {e : Engine} {config : InstrumentConfig} {i : Nat} {slot : Slot}

/-- A slot after `addInstrument` was there before, or is the new one without orders. -/
theorem slot_of_addInstrument (h : (e.addInstrument config).engine.slots[i]? = some slot) :
    e.slots[i]? = some slot ∨
      (slot = ⟨config, .empty config.symbol⟩ ∧ config.validate = .ok ()) := by
  unfold addInstrument at h
  split at h
  · exact Or.inl h
  · next hv =>
      split at h
      · exact Or.inl h
      · change (e.slots ++ [⟨config, .empty config.symbol⟩])[i]? = some slot at h
        rw [List.getElem?_append] at h
        split at h
        · exact Or.inl h
        · exact Or.inr ⟨List.mem_singleton.mp (List.mem_of_getElem? h), hv⟩

/-- `addInstrument` changes nothing of what was there before. -/
theorem addInstrument_keeps (e : Engine) (config : InstrumentConfig) :
    (e.addInstrument config).engine.rule = e.rule ∧
      (e.addInstrument config).engine.routes = e.routes ∧
      (e.addInstrument config).engine.counters = e.counters ∧
      ∀ (i : Nat) (slot : Slot), e.slots[i]? = some slot →
        (e.addInstrument config).engine.slots[i]? = some slot := by
  unfold addInstrument
  split
  · exact ⟨rfl, rfl, rfl, fun _ _ h => h⟩
  · split
    · exact ⟨rfl, rfl, rfl, fun _ _ h => h⟩
    · refine ⟨rfl, rfl, rfl, fun i slot h => ?_⟩
      obtain ⟨hlt, -⟩ := List.getElem?_eq_some_iff.mp h
      exact (List.getElem?_append_left hlt).trans h

theorem addInstrument_events (e : Engine) (config : InstrumentConfig) :
    (e.addInstrument config).events = [] := by
  unfold addInstrument
  split
  · rfl
  · split <;> rfl

theorem addInstrument_rests (e : Engine) (config : InstrumentConfig) (i : Nat) (o : Order) :
    (e.addInstrument config).engine.Rests i o ↔ e.Rests i o := by
  constructor
  · rintro ⟨slot, hs, ho⟩
    rcases slot_of_addInstrument hs with hs | ⟨rfl, -⟩
    · exact ⟨slot, hs, ho⟩
    · exact absurd ho (Book.not_holds_empty _ _)
  · rintro ⟨slot, hs, ho⟩
    exact ⟨slot, (addInstrument_keeps e config).2.2.2 i slot hs, ho⟩

theorem addInstrument_inOrder (h : e.InOrder) (config : InstrumentConfig) :
    (e.addInstrument config).engine.InOrder := by
  obtain ⟨-, hroutes, hcounters, -⟩ := addInstrument_keeps e config
  have hrests := addInstrument_rests e config
  refine ⟨fun {i slot} hs => ?_, fun {i slot} hs => ?_, fun {i o} ho => ?_,
    fun {i o} ho => ?_, fun {i o} ho => h.sized ((hrests i o).mp ho)⟩
  · rcases slot_of_addInstrument hs with hs | ⟨rfl, -⟩
    · exact h.book hs
    · exact Book.sound_empty _
  · rcases slot_of_addInstrument hs with hs | ⟨rfl, hv⟩
    · exact h.valid hs
    · exact hv
  · rw [hroutes]
    exact h.routed ((hrests i o).mp ho)
  · rw [hcounters]
    exact h.early ((hrests i o).mp ho)

theorem addInstrument_sound (h : e.Sound) (config : InstrumentConfig) :
    (e.addInstrument config).engine.Sound :=
  ⟨addInstrument_inOrder h.toInOrder config,
    (addInstrument_keeps e config).1.trans h.rule_eq⟩

end AddInstrument

/-! ## Sending an order in -/

/-- The order that an intent becomes once it has an arrival number. -/
def entering (e : Engine) (world : Surroundings) (intent : OrderIntent) : Order :=
  { Order.ofIntent (intent.orderId.getD world.orderId) world.now intent with
    sequence := e.counters.arrivals + 1 }

/-- The intent is for a listed instrument, passes its checks, and its identity is not live. -/
structure Admits (e : Engine) (world : Surroundings) (intent : OrderIntent) (i : Nat)
    (slot : Slot) : Prop where
  found : e.lookup? intent.symbol = some (i, slot)
  checked : checkIntent slot.config intent = .ok ()
  free : e.routes.get? (e.entering world intent).id = none

/-- The engine once an identity has arrived, with a number and a route. -/
def received (e : Engine) (i : Nat) (id : OrderId) : Engine :=
  { e with
    routes := e.routes.insert id ⟨i, e.counters.arrivals + 1⟩
    counters := { e.counters with arrivals := e.counters.arrivals + 1 } }

/-- A view of engines that no arrival changes and no work at certain desks, whatever stops it. -/
structure Unshaken {β : Type} (desks : Nat → Prop) (view : Engine → β) : Prop where
  received : ∀ e i id, view (received e i id) = view e
  counted : ∀ (e : Engine) (c : Counters), view { e with counters := c } = view e
  leave : ∀ (e : Engine) i d, desks i → view (e.leave i d) = view e

theorem unshaken_rule : Unshaken (fun _ => True) Engine.rule :=
  ⟨fun _ _ _ => rfl, fun _ _ => rfl, fun _ _ _ _ => rfl⟩

section Submit

variable {e : Engine} {world : Surroundings} {intent : OrderIntent} {i : Nat} {slot : Slot}

theorem InOrder.not_has (h : e.InOrder) (hslot : e.slots[i]? = some slot) {id : OrderId}
    (hfree : e.routes.get? id = none) : ¬ slot.book.Has id := by
  rintro ⟨o, ho, rfl⟩
  obtain ⟨r, hr, -⟩ := h.routed ⟨slot, hslot, ho⟩
  rw [hfree] at hr
  cases hr

theorem InOrder.received (h : e.InOrder) {id : OrderId} (hfree : e.routes.get? id = none)
    (i : Nat) : (e.received i id).InOrder where
  book hslot := h.book hslot
  valid hslot := h.valid hslot
  routed {j o} ho := by
    obtain ⟨r, hr, hslot⟩ := h.routed ho
    refine ⟨r, (Table.get?_insert_of_ne _ ?_ _).trans hr, hslot⟩
    rintro rfl
    rw [hfree] at hr
    cases hr
  early ho := Nat.le_succ_of_le (h.early ho)
  sized ho := h.sized ho

theorem Sound.received (h : e.Sound) {id : OrderId} (hfree : e.routes.get? id = none)
    (i : Nat) : (e.received i id).Sound :=
  ⟨h.toInOrder.received hfree i, h.rule_eq⟩

theorem Admits.enters (ha : e.Admits world intent i slot) (h : e.InOrder) :
    Desk.Enters (e.entering world intent)
      ((e.received i (e.entering world intent).id).desk slot.book) := by
  have hslot := slot_of_lookup? ha.found
  have hpassed := passed_of_checkIntent ha.checked
  exact
    { sound := h.book hslot
      free := h.not_has hslot ha.free
      late := fun x hx => Nat.lt_succ_of_le (h.early ⟨slot, hslot, hx⟩)
      live := rfl
      sized := ⟨Int.le_of_lt hpassed.pos, Int.le_refl _⟩
      priced := hpassed.priced }

/-- The reply of `submit` about an order that has been executed: the log is told, too. -/
def processed (symbol : String) (id : OrderId) (r : Reply Fault OrderResult) :
    Reply Fault (Except Rejection OrderResult) where
  engine := r.engine
  answer := r.answer.map .ok
  output :=
    match r.answer with
    | .error _ => r.output
    | .ok result =>
      r.output ++ [.notice (.orderProcessed symbol id result.status result.trades.length)]

theorem enter_eq (e : Engine) (world : Surroundings) (i : Nat) (slot : Slot) (o : Order)
    (hfree : e.routes.get? o.id = none) :
    e.enter world i slot o =
      processed slot.config.symbol o.id ((e.received i o.id).guarded i slot o.id
        (Desk.execute e.rule world { o with sequence := e.counters.arrivals + 1 })) := by
  have hlive : ¬ e.routes.contains o.id = true := by
    unfold Table.contains
    rw [hfree]
    exact Bool.false_ne_true
  unfold enter received
  dsimp only
  rw [if_neg hlive]
  generalize Engine.guarded _ i slot o.id _ = r
  obtain ⟨engine, answer, output⟩ := r
  cases answer <;> rfl

theorem enter_run (e : Engine) (world : Surroundings) (i : Nat) (slot : Slot) (o : Order)
    (hfree : e.routes.get? o.id = none) :
    ∃ r : Reply Fault OrderResult,
      r = (e.received i o.id).guarded i slot o.id
        (Desk.execute e.rule world { o with sequence := e.counters.arrivals + 1 }) ∧
      (e.enter world i slot o).engine = r.engine ∧
      (e.enter world i slot o).answer = r.answer.map .ok ∧
      (e.enter world i slot o).events = r.events := by
  refine ⟨_, rfl, ?_⟩
  rw [enter_eq e world i slot o hfree]
  generalize Engine.guarded _ i slot o.id _ = r
  obtain ⟨engine, answer, output⟩ := r
  cases answer with
  | error f => exact ⟨rfl, rfl, rfl⟩
  | ok result =>
      refine ⟨rfl, rfl, ?_⟩
      simp only [Reply.events, processed, List.filterMap_append]
      exact List.append_nil _

/-- An intent that the engine `Admits` is matched at the desk of its slot. -/
theorem submit_of_admits (ha : e.Admits world intent i slot) :
    ∃ r : Reply Fault OrderResult,
      r = (e.received i (e.entering world intent).id).guarded i slot (e.entering world intent).id
        (Desk.execute e.rule world (e.entering world intent)) ∧
      (e.submit world intent).engine = r.engine ∧
      (e.submit world intent).answer = r.answer.map .ok ∧
      (e.submit world intent).events = r.events := by
  unfold submit
  rw [ha.found]
  dsimp only
  rw [ha.checked]
  exact enter_run e world i slot _ ha.free

/-- The engine once an intent has been refused for its identity: it has taken an arrival number. -/
def afterDuplicate (e : Engine) : Engine :=
  { e with counters := { e.counters with arrivals := e.counters.arrivals + 1 } }

/-- The engine once an intent has been refused for anything else: one event has been numbered. -/
def afterRejection (e : Engine) : Engine :=
  { e with counters := { e.counters with events := e.counters.events + 1 } }

theorem unmoved_afterDuplicate (e : Engine) : Unmoved e e.afterDuplicate :=
  ⟨rfl, rfl, rfl, Nat.le_succ _⟩

theorem unmoved_afterRejection (e : Engine) : Unmoved e e.afterRejection :=
  ⟨rfl, rfl, rfl, Nat.le_refl _⟩

/-- The intent is for a listed instrument and passes its checks. -/
def Valid (e : Engine) (intent : OrderIntent) : Prop :=
  ∃ i slot, e.lookup? intent.symbol = some (i, slot) ∧ checkIntent slot.config intent = .ok ()

/-- An intent that is `Valid` is refused under an identity that is live. It has taken an arrival
number, but nothing is told of it. -/
theorem submit_duplicate (world : Surroundings) (hvalid : e.Valid intent)
    (hlive : e.routes.get? (e.entering world intent).id ≠ none) :
    (e.submit world intent).engine = e.afterDuplicate ∧ (e.submit world intent).events = [] ∧
      (e.submit world intent).answer = .ok (.error ⟨(e.entering world intent).id,
        .duplicateOrderId (e.entering world intent).id⟩) := by
  obtain ⟨i, slot, hl, hc⟩ := hvalid
  have hcontains : e.routes.contains
      (Order.ofIntent (intent.orderId.getD world.orderId) world.now intent).id = true :=
    Option.isSome_iff_ne_none.mpr hlive
  unfold submit
  rw [hl]
  dsimp only
  rw [hc]
  dsimp only
  unfold enter
  dsimp only
  rw [if_pos hcontains]
  exact ⟨rfl, rfl, rfl⟩

/-- The number that an order gets as it is entered does not show in its refusal. -/
theorem declines_entering (e : Engine) {u : OrderUpdate} {reason : RejectReason} {n : Nat}
    (h : u.Declines (Order.ofIntent (intent.orderId.getD world.orderId) world.now intent)
      reason n) :
    u.Declines (e.entering world intent) reason n :=
  ⟨h.toRejects, h.symbol_eq, h.remaining_eq, h.filled_zero, h.sequence_eq⟩

/-- An intent that breaks a rule of its instrument is refused whether its identity is live or not,
and told to be. -/
theorem submit_objected {reason : RejectReason} (world : Surroundings)
    (hl : e.lookup? intent.symbol = some (i, slot))
    (hc : checkIntent slot.config intent = .error (.refusal reason)) :
    (e.submit world intent).engine = e.afterRejection ∧ ∃ u : OrderUpdate,
      u.Declines (e.entering world intent) reason (e.counters.events + 1) ∧
      (((e.submit world intent).events = [.update u] ∧
          (e.submit world intent).answer = .ok (.error ⟨(e.entering world intent).id, reason⟩)) ∨
        ((e.submit world intent).events = [] ∧ slot.book.isCrossed = true ∧
          (e.submit world intent).answer = .error (.crossedAtRest slot.book.symbol))) := by
  have hslot := slot_of_lookup? hl
  obtain ⟨u, hu, hrun⟩ := Desk.refuse_isOk world
    (o := Order.ofIntent (intent.orderId.getD world.orderId) world.now intent) reason
    (e.desk slot.book) rfl rfl
  have hengine : e.leave i ((e.desk slot.book).stamped.told (.update u)) = e.afterRejection :=
    leave_same hslot rfl
  unfold submit
  rw [hl]
  dsimp only
  rw [hc]
  dsimp only
  unfold rejectListed
  rw [exclusive_run, hrun]
  dsimp only
  by_cases hcross : slot.book.isCrossed = true
  · have hdesk : ((e.desk slot.book).stamped.told (.update u)).book.isCrossed = true := hcross
    rw [if_pos hdesk]
    exact ⟨hengine, u, declines_entering e hu, Or.inr ⟨rfl, hcross, rfl⟩⟩
  · have hdesk : ¬ ((e.desk slot.book).stamped.told (.update u)).book.isCrossed = true := hcross
    rw [if_neg hdesk]
    exact ⟨hengine, u, declines_entering e hu, Or.inl ⟨rfl, rfl⟩⟩

/-- Any other intent that is not `Valid` is refused too, be it for its symbol or for its terms. -/
theorem submit_invalid (world : Surroundings)
    (hlisted : ∀ {i : Nat} {slot : Slot}, e.slots[i]? = some slot → slot.config.validate = .ok ())
    (hinvalid : ¬ e.Valid intent) :
    (e.submit world intent).engine = e.afterRejection ∧ ∃ reason, ∃ u : OrderUpdate,
      reason.isDuplicate = false ∧
      u.Declines (e.entering world intent) reason (e.counters.events + 1) ∧
      (((e.submit world intent).events = [.update u] ∧
          (e.submit world intent).answer = .ok (.error ⟨(e.entering world intent).id, reason⟩)) ∨
        ((e.submit world intent).events = [] ∧
          ∃ (i : Nat) (slot : Slot), e.slots[i]? = some slot ∧ slot.book.isCrossed = true ∧
            (e.submit world intent).answer = .error (.crossedAtRest slot.book.symbol))) := by
  cases hl : e.lookup? intent.symbol with
  | none =>
      obtain ⟨u, hu, hrun⟩ := Desk.refuse_isOk world
        (o := Order.ofIntent (intent.orderId.getD world.orderId) world.now intent)
        (.unknownSymbol intent.symbol) (e.desk (.empty intent.symbol)) rfl rfl
      unfold submit
      rw [hl]
      dsimp only
      unfold rejectUnlisted
      dsimp only [Order.ofIntent] at hrun ⊢
      rw [hrun]
      exact ⟨rfl, _, u, rfl, declines_entering e hu, Or.inl ⟨rfl, rfl⟩⟩
  | some place =>
      obtain ⟨i, slot⟩ := place
      have hslot := slot_of_lookup? hl
      cases hc : checkIntent slot.config intent with
      | ok u => exact absurd ⟨i, slot, hl, hc⟩ hinvalid
      | error o =>
          cases o with
          | fault f => exact absurd hc (checkIntent_ne_fault (hlisted hslot))
          | refusal reason =>
              obtain ⟨hengine, u, hu, hsaid⟩ := submit_objected world hl hc
              refine ⟨hengine, reason, u, checkIntent_refusal hc, hu,
                hsaid.imp_right fun ⟨hevents, hcross, hanswer⟩ => ?_⟩
              exact ⟨hevents, i, slot, hslot, hcross, hanswer⟩

/-- A call that is refused: books and routes stay, and no event tells of anything but the
refusal. -/
structure Refused {α : Type} (e : Engine) (r : Reply Fault (Except Rejection α)) : Prop where
  unmoved : Unmoved e r.engine
  events : ∀ ev ∈ r.events, ∃ u : OrderUpdate, ev = .update u ∧ u.IsRejection
  answer : (∃ why, r.answer = .ok (.error why)) ∨
    ∃ (i : Nat) (slot : Slot), e.slots[i]? = some slot ∧ slot.book.isCrossed = true ∧
      r.answer = .error (.crossedAtRest slot.book.symbol)

/-- An intent that the engine does not admit is `Refused`. -/
theorem submit_refused (h : e.InOrder) (hnot : ∀ i slot, ¬ e.Admits world intent i slot) :
    e.Refused (e.submit world intent) := by
  by_cases hvalid : e.Valid intent
  · obtain ⟨i, slot, hl, hc⟩ := hvalid
    obtain ⟨hengine, hevents, hanswer⟩ := submit_duplicate world ⟨i, slot, hl, hc⟩
      fun hfree => hnot i slot ⟨hl, hc, hfree⟩
    refine ⟨hengine ▸ unmoved_afterDuplicate e, fun ev hev => ?_, Or.inl ⟨_, hanswer⟩⟩
    rw [hevents] at hev
    cases hev
  · obtain ⟨hengine, reason, u, -, hu, hsaid⟩ := submit_invalid world h.valid hvalid
    have hunmoved : Unmoved e (e.submit world intent).engine := hengine ▸ unmoved_afterRejection e
    rcases hsaid with ⟨hevents, hanswer⟩ | ⟨hevents, hcrossed⟩
    · refine ⟨hunmoved, fun ev hev => ⟨u, ?_, hu.toRejects.isRejection⟩, Or.inl ⟨_, hanswer⟩⟩
      rw [hevents] at hev
      exact List.mem_singleton.mp hev
    · refine ⟨hunmoved, fun ev hev => ?_, Or.inr hcrossed⟩
      rw [hevents] at hev
      cases hev

theorem submit_inOrder (hr : e.rule.Fills) (h : e.InOrder) (world : Surroundings)
    (intent : OrderIntent) : (e.submit world intent).engine.InOrder := by
  by_cases hadmits : ∃ i slot, e.Admits world intent i slot
  · obtain ⟨i, slot, ha⟩ := hadmits
    obtain ⟨r, hreply, hengine, -, -⟩ := submit_of_admits ha
    have henters := ha.enters h
    have hwork := Desk.execute_worked hr world henters
    rw [hengine, hreply]
    refine (h.received ha.free i).guarded (slot_of_lookup? ha.found)
      ⟨_, Table.get?_insert_self _ _ _, rfl⟩ ?_
    have hwelcome {d' : Desk} (ha : e.counters.arrivals + 1 ≤ d'.counters.arrivals) (x : Order)
        (hx : (e.entering world intent).Filled x) :
        Desk.Welcome (e.entering world intent).id d' x :=
      ⟨hx.same.id_eq, hx.same.sequence_eq.symm ▸ ha, hx.sized henters.sized⟩
    cases hrun : Desk.execute e.rule world (e.entering world intent)
        ((e.received i (e.entering world intent).id).desk slot.book) with
    | error f d' =>
        rw [hrun] at hwork
        exact hwork.mono fun _ => False.elim
    | ok result d' =>
        rw [hrun] at hwork
        exact hwork.mono (hwelcome hwork.arrivals_le)
  · exact (submit_refused h fun i slot ha => hadmits ⟨i, slot, ha⟩).unmoved.inOrder h

theorem Unshaken.submit {β : Type} {desks : Nat → Prop} {view : Engine → β}
    (h : Unshaken desks view) (e : Engine) (world : Surroundings) (intent : OrderIntent)
    (hdesk : ∀ i slot, e.lookup? intent.symbol = some (i, slot) → desks i) :
    view (e.submit world intent).engine = view e := by
  unfold Engine.submit
  dsimp only
  cases hl : e.lookup? intent.symbol with
  | none =>
      dsimp only
      unfold rejectUnlisted
      dsimp only
      split <;> exact h.counted e _
  | some place =>
      obtain ⟨i, slot⟩ := place
      have hi := hdesk i slot hl
      dsimp only
      split
      · rfl
      · unfold rejectListed
        dsimp only
        rw [exclusive_outcome, h.leave e i _ hi]
      · unfold enter
        dsimp only
        split
        · exact h.counted e _
        · generalize hr : Engine.guarded _ _ _ _ _ = r
          have hkept : view r.engine = view e := by
            obtain ⟨d, hd, -⟩ :=
              guarded_outcome (e.received _ _) i slot _ (Desk.execute e.rule world _)
            rw [← hr]
            exact (congrArg view hd).trans
              ((h.leave (e.received _ _) i d hi).trans (h.received e _ _))
          split <;> exact hkept

theorem submit_sound (h : e.Sound) (world : Surroundings) (intent : OrderIntent) :
    (e.submit world intent).engine.Sound :=
  ⟨submit_inOrder h.fills h.toInOrder world intent,
    (unshaken_rule.submit e world intent fun _ _ _ => trivial).trans h.rule_eq⟩

end Submit

/-! ## Cancelling and modifying -/

section Live

variable {e : Engine} {world : Surroundings} {id : OrderId} {i : Nat} {slot : Slot}

theorem cancel_not_found (hl : e.locate? id = none) :
    e.cancel world id = ⟨e, .ok .notFound, []⟩ := by
  unfold cancel
  rw [hl]

/-- `cancel` works at the desk its identity is routed to. -/
theorem cancel_run (world : Surroundings) (hl : e.locate? id = some (i, slot)) :
    ∃ r : Reply Fault CancelResult, r = e.exclusive i slot (Desk.cancel world id) ∧
      (e.cancel world id).engine = r.engine ∧ (e.cancel world id).answer = r.answer ∧
      (e.cancel world id).events = r.events := by
  refine ⟨_, rfl, ?_⟩
  unfold cancel
  rw [hl]
  dsimp only
  generalize e.exclusive i slot (Desk.cancel world id) = r
  obtain ⟨engine, answer, output⟩ := r
  cases answer with
  | error f => exact ⟨rfl, rfl, rfl⟩
  | ok result =>
      cases result with
      | notFound => exact ⟨rfl, rfl, rfl⟩
      | cancelled o =>
          refine ⟨rfl, rfl, ?_⟩
          unfold Reply.events
          rw [List.filterMap_append]
          exact List.append_nil _

theorem cancel_inOrder (h : e.InOrder) (world : Surroundings) (id : OrderId) :
    (e.cancel world id).engine.InOrder := by
  cases hl : e.locate? id with
  | none =>
      rw [cancel_not_found hl]
      exact h
  | some place =>
      obtain ⟨hslot, hroute⟩ := route_of_locate? hl
      obtain ⟨r, hr, hengine, -, -⟩ := cancel_run world hl
      have hwork := Desk.cancel_worked (d := e.desk place.2.book) world id (h.book hslot)
        fun o ho => h.sized ⟨place.2, hslot, ho⟩
      rw [hengine, hr]
      refine h.exclusive hslot hroute ?_
      cases hrun : Desk.cancel world id (e.desk place.2.book) with
      | error f d' =>
          rw [hrun] at hwork
          exact hwork.mono fun _ => False.elim
      | ok a d' =>
          rw [hrun] at hwork
          exact hwork.mono fun _ => False.elim

theorem Unshaken.cancel {β : Type} {desks : Nat → Prop} {view : Engine → β}
    (h : Unshaken desks view) (e : Engine) (world : Surroundings) (id : OrderId)
    (hdesk : ∀ i slot, e.locate? id = some (i, slot) → desks i) :
    view (e.cancel world id).engine = view e := by
  cases hl : e.locate? id with
  | none => rw [cancel_not_found hl]
  | some place =>
      obtain ⟨r, hr, hengine, -, -⟩ := cancel_run world hl
      rw [hengine, hr, exclusive_outcome, h.leave e place.1 _ (hdesk _ _ hl)]

theorem cancel_sound (h : e.Sound) (world : Surroundings) (id : OrderId) :
    (e.cancel world id).engine.Sound :=
  ⟨cancel_inOrder h.toInOrder world id,
    (unshaken_rule.cancel e world id fun _ _ _ => trivial).trans h.rule_eq⟩

/-- A request to modify that finds its order and passes the checks. -/
structure Revises (e : Engine) (id : OrderId) (request : ModifyRequest) (i : Nat) (slot : Slot) :
    Prop where
  found : e.locate? id = some (i, slot)
  checked : checkRequest slot.config request = .ok ()

variable {request : ModifyRequest}

theorem modify_of_revises (hr : e.Revises id request i slot) :
    e.modify world id request =
      e.guarded i slot id (Desk.modifyOrder e.rule world id request) := by
  unfold modify
  rw [hr.found]
  dsimp only
  rw [hr.checked]

/-- A request that `Revises` nothing changes nothing and sends nothing. -/
theorem modify_refused (world : Surroundings) (h : e.InOrder)
    (hnot : ∀ i slot, ¬ e.Revises id request i slot) :
    (e.modify world id request).engine = e ∧ (e.modify world id request).events = [] ∧
      ((e.modify world id request).answer = .ok .notFound ∨
        ∃ reason, (e.modify world id request).answer = .ok (.rejected reason)) := by
  unfold modify
  cases hl : e.locate? id with
  | none => exact ⟨rfl, rfl, Or.inl rfl⟩
  | some place =>
      obtain ⟨i, slot⟩ := place
      dsimp only
      cases hc : checkRequest slot.config request with
      | error o =>
          cases o with
          | fault f => exact absurd hc (checkRequest_ne_fault (h.valid (route_of_locate? hl).1))
          | refusal reason => exact ⟨rfl, rfl, Or.inr ⟨reason, rfl⟩⟩
      | ok u => exact absurd ⟨hl, hc⟩ (hnot i slot)

/-- Everything that rests can still trade. -/
def Live (e : Engine) : Prop := ∀ {i : Nat} {o : Order}, e.Rests i o → o.status.isLive = true

/-- Every book of an engine that is `Live` can be worked on. -/
theorem InOrder.ready (h : e.InOrder) (hlive : e.Live) (hslot : e.slots[i]? = some slot) :
    (e.desk slot.book).Ready where
  sound := h.book hslot
  live _ hx := hlive ⟨slot, hslot, hx⟩
  sized _ hx := h.sized ⟨slot, hslot, hx⟩
  early _ hx := h.early ⟨slot, hslot, hx⟩

theorem modify_inOrder (hrule : e.rule.Fills) (h : e.InOrder) (hlive : e.Live)
    (world : Surroundings) (id : OrderId) (request : ModifyRequest) :
    (e.modify world id request).engine.InOrder := by
  by_cases hrevises : ∃ i slot, e.Revises id request i slot
  · obtain ⟨i, slot, hr⟩ := hrevises
    obtain ⟨hslot, hroute⟩ := route_of_locate? hr.found
    have hrests {o : Order} (ho : slot.book.Holds o) : e.Rests i o := ⟨slot, hslot, ho⟩
    have hwork := Desk.modifyOrder_worked hrule world id request (h.ready hlive hslot)
      (Int.le_of_lt (passed_of_checkRequest hr.checked).1)
    rw [modify_of_revises hr]
    refine h.guarded hslot hroute ?_
    have hlessened {d' : Desk} (ha : e.counters.arrivals ≤ d'.counters.arrivals) (x : Order)
        (hx : Desk.Lessened id (e.desk slot.book) x) : Desk.Welcome id d' x := by
      obtain ⟨hid, hsized, o, ho, hsame⟩ := hx
      refine ⟨hid, ?_, hsized⟩
      rw [hsame.sequence_eq]
      exact Nat.le_trans (h.early (hrests ho)) ha
    cases hrun : Desk.modifyOrder e.rule world id request (e.desk slot.book) with
    | error f d' =>
        rw [hrun] at hwork
        exact hwork.mono (hlessened hwork.arrivals_le)
    | ok a d' =>
        rw [hrun] at hwork
        refine hwork.mono fun x hx => ?_
        rcases hx with hx | ⟨hid, hsized, -, harr⟩
        · exact hlessened hwork.arrivals_le x hx
        · exact ⟨hid, harr, hsized⟩
  · rw [(modify_refused world h fun i slot hr => hrevises ⟨i, slot, hr⟩).1]
    exact h

theorem Unshaken.modify {β : Type} {desks : Nat → Prop} {view : Engine → β}
    (h : Unshaken desks view) (e : Engine) (world : Surroundings) (id : OrderId)
    (request : ModifyRequest) (hdesk : ∀ i slot, e.locate? id = some (i, slot) → desks i) :
    view (e.modify world id request).engine = view e := by
  unfold Engine.modify
  cases hl : e.locate? id with
  | none => rfl
  | some place =>
      dsimp only
      split
      · rfl
      · rfl
      · obtain ⟨d, hd, -⟩ :=
          guarded_outcome e place.1 place.2 id (Desk.modifyOrder e.rule world id request)
        rw [hd, h.leave e place.1 d (hdesk _ _ hl)]

theorem modify_sound (h : e.Sound) (hlive : e.Live) (world : Surroundings) (id : OrderId)
    (request : ModifyRequest) : (e.modify world id request).engine.Sound :=
  ⟨modify_inOrder h.fills h.toInOrder hlive world id request,
    (unshaken_rule.modify e world id request fun _ _ _ => trivial).trans h.rule_eq⟩

end Live

/-! ## Calls that come to their end -/

section Ended

variable {e : Engine} {world : Surroundings}

/-- An act at a desk of one's own that is answered without a fault. -/
theorem exclusive_of_ok {α : Type} {i : Nat} {slot : Slot} {act : Attempt Desk α} {a : α}
    (h : (e.exclusive i slot act).answer = .ok a) :
    ∃ d, act (e.desk slot.book) = .ok a d ∧
      e.exclusive i slot act = ⟨e.leave i d, .ok a, eventsOf d⟩ := by
  unfold exclusive at h ⊢
  cases hrun : Desk.atRest act (e.desk slot.book) with
  | error f d =>
      rw [hrun] at h
      cases h
  | ok b d =>
      rw [hrun] at h
      cases h
      exact ⟨d, atRest_eq_ok act hrun, rfl⟩

theorem guarded_of_ok {α : Type} {i : Nat} {slot : Slot} {id : OrderId} {act : Attempt Desk α}
    {a : α} (h : (e.guarded i slot id act).answer = .ok a) :
    ∃ d, act (e.desk slot.book) = .ok a d ∧
      e.guarded i slot id act = ⟨e.leave i d, .ok a, eventsOf d⟩ := by
  unfold guarded at h ⊢
  cases hrun : Desk.atRest act (e.desk slot.book) with
  | error f d =>
      rw [hrun] at h
      cases h
  | ok b d =>
      rw [hrun] at h
      cases h
      exact ⟨d, atRest_eq_ok act hrun, rfl⟩

theorem exclusive_of_uncrossed {α : Type} {i : Nat} {slot : Slot} {act : Attempt Desk α} {a : α}
    {d : Desk} (hrun : act (e.desk slot.book) = .ok a d) (hd : d.book.isCrossed = false) :
    e.exclusive i slot act = ⟨e.leave i d, .ok a, eventsOf d⟩ := by
  rw [exclusive_run, hrun]
  dsimp only
  rw [hd, if_neg Bool.false_ne_true]

theorem guarded_of_uncrossed {α : Type} {i : Nat} {slot : Slot} {id : OrderId}
    {act : Attempt Desk α} {a : α} {d : Desk} (hrun : act (e.desk slot.book) = .ok a d)
    (hd : d.book.isCrossed = false) :
    e.guarded i slot id act = ⟨e.leave i d, .ok a, eventsOf d⟩ := by
  rw [guarded_run, hrun]
  dsimp only
  rw [hd, if_neg Bool.false_ne_true]

theorem events_of_desk {ε α : Type} (e : Engine) (answer : Except ε α) (d : Desk) :
    (⟨e, answer, eventsOf d⟩ : Reply ε α).events = d.emitted := events_eventsOf d

/-- The `execute` of an admitted intent that is accepted has come to its end. -/
theorem submit_of_admits_ok {intent : OrderIntent} {r : OrderResult} {i : Nat} {slot : Slot}
    (h : e.Sound) (hadm : e.Admits world intent i slot)
    (ha : (e.submit world intent).answer = .ok (.ok r)) :
    ∃ d, Desk.execute .priceTime world (e.entering world intent)
        ((e.received i (e.entering world intent).id).desk slot.book) = .ok r d ∧
      (e.submit world intent).engine =
        (e.received i (e.entering world intent).id).leave i d ∧
      (e.submit world intent).events = d.emitted := by
  obtain ⟨reply, hreply, hengine, hanswer, hevents⟩ := submit_of_admits hadm
  rw [h.rule_eq] at hreply
  rw [hanswer] at ha
  obtain ⟨r', hok, hr⟩ := map_eq_ok.mp ha
  cases hr
  rw [hreply] at hok
  obtain ⟨d, hrun, hguarded⟩ := guarded_of_ok hok
  rw [hguarded] at hreply
  refine ⟨d, hrun, by rw [hengine, hreply], ?_⟩
  rw [hevents, hreply, events_of_desk]

/-- An intent that is accepted was admitted, in any state of the engine. -/
theorem admits_of_accepted {intent : OrderIntent} {r : OrderResult}
    (ha : (e.submit world intent).answer = .ok (.ok r)) :
    ∃ i slot, e.Admits world intent i slot := by
  have hanswer := ha
  unfold submit at ha
  split at ha
  · unfold rejectUnlisted at ha
    dsimp only at ha
    split at ha <;> cases ha
  · next i slot hfound =>
      split at ha
      · cases ha
      · unfold rejectListed at ha
        dsimp only at ha
        generalize (Engine.exclusive _ _ _ _).answer = a at ha
        cases a <;> cases ha
      · next hchecked =>
          refine ⟨i, slot, hfound, hchecked, Classical.byContradiction fun hlive => ?_⟩
          obtain ⟨-, -, hrejected⟩ := submit_duplicate world ⟨i, slot, hfound, hchecked⟩ hlive
          rw [hrejected] at hanswer
          cases hanswer

theorem revises_of_modified {id : OrderId} {request : ModifyRequest} {r : OrderResult}
    (ha : (e.modify world id request).answer = .ok (.modified r)) :
    ∃ i slot, e.Revises id request i slot := by
  unfold modify at ha
  split at ha
  · cases ha
  · next i slot hfound =>
      split at ha
      · cases ha
      · cases ha
      · next hchecked => exact ⟨i, slot, hfound, hchecked⟩

/-- An intent that is accepted was admitted, and its execution has come to its end. -/
theorem submit_of_ok {intent : OrderIntent} {r : OrderResult} (h : e.Sound)
    (ha : (e.submit world intent).answer = .ok (.ok r)) :
    ∃ (i : Nat) (slot : Slot) (d : Desk), e.Admits world intent i slot ∧
      Desk.execute .priceTime world (e.entering world intent)
        ((e.received i (e.entering world intent).id).desk slot.book) = .ok r d ∧
      (e.submit world intent).engine =
        (e.received i (e.entering world intent).id).leave i d ∧
      (e.submit world intent).events = d.emitted := by
  obtain ⟨i, slot, hadm⟩ := admits_of_accepted ha
  obtain ⟨d, hend⟩ := submit_of_admits_ok h hadm ha
  exact ⟨i, slot, d, hadm, hend⟩

/-- An intent that is rejected leaves everything as it was. -/
theorem not_admits_of_rejected {intent : OrderIntent} {why : Rejection}
    (ha : (e.submit world intent).answer = .ok (.error why)) (i : Nat) (slot : Slot) :
    ¬ e.Admits world intent i slot := by
  intro hadm
  obtain ⟨reply, -, -, hanswer, -⟩ := submit_of_admits hadm
  obtain ⟨r, -, hr⟩ := map_eq_ok.mp (hanswer.symm.trans ha)
  cases hr

theorem submit_of_rejected {intent : OrderIntent} {why : Rejection} (h : e.Sound)
    (ha : (e.submit world intent).answer = .ok (.error why)) :
    e.Refused (e.submit world intent) := submit_refused h.toInOrder (not_admits_of_rejected ha)

/-- The `cancel` of an order that is located has come to its end at the desk of its slot. -/
theorem cancel_of_located {id : OrderId} {r : CancelResult} {i : Nat} {slot : Slot} (h : e.Sound)
    (hl : e.locate? id = some (i, slot)) (ha : (e.cancel world id).answer = .ok r) :
    ∃ d, Desk.Cancelled world id (e.desk slot.book) r d ∧
      (e.cancel world id).engine = e.leave i d ∧ (e.cancel world id).events = d.emitted := by
  obtain ⟨reply, hreply, hengine, hanswer, hevents⟩ := cancel_run world hl
  rw [hanswer, hreply] at ha
  obtain ⟨d, hrun, hexclusive⟩ := exclusive_of_ok ha
  rw [hexclusive] at hreply
  have hbook : (e.desk slot.book).book.Sound := h.book (route_of_locate? hl).1
  refine ⟨d, Desk.cancelled_of_ok hbook hrun, by rw [hengine, hreply], ?_⟩
  rw [hevents, hreply, events_of_desk]

theorem cancel_of_ok {id : OrderId} {r : CancelResult} (h : e.Sound)
    (ha : (e.cancel world id).answer = .ok r) :
    ((e.cancel world id).engine = e ∧ (e.cancel world id).events = [] ∧ r = .notFound) ∨
      ∃ (i : Nat) (slot : Slot) (d : Desk), e.locate? id = some (i, slot) ∧
        Desk.Cancelled world id (e.desk slot.book) r d ∧
        (e.cancel world id).engine = e.leave i d ∧ (e.cancel world id).events = d.emitted := by
  cases hl : e.locate? id with
  | none =>
      rw [cancel_not_found hl] at ha ⊢
      cases ha
      exact Or.inl ⟨rfl, rfl, rfl⟩
  | some place =>
      obtain ⟨d, hcancelled, hleave⟩ := cancel_of_located h hl ha
      exact Or.inr ⟨place.1, place.2, d, rfl, hcancelled, hleave⟩

theorem modify_of_ok {id : OrderId} {request : ModifyRequest} {r : ModifyResult} (h : e.Sound)
    (ha : (e.modify world id request).answer = .ok r) :
    ((e.modify world id request).engine = e ∧ (e.modify world id request).events = [] ∧
        ∀ result, r ≠ .modified result) ∨
      ∃ (i : Nat) (slot : Slot) (d : Desk), e.Revises id request i slot ∧
        Desk.Modified world id request (e.desk slot.book) r d ∧
        (e.modify world id request).engine = e.leave i d ∧
        (e.modify world id request).events = d.emitted := by
  by_cases hrevises : ∃ i slot, e.Revises id request i slot
  · obtain ⟨i, slot, hr⟩ := hrevises
    have hbook : (e.desk slot.book).book.Sound := h.book (route_of_locate? hr.found).1
    rw [modify_of_revises hr, h.rule_eq] at ha ⊢
    obtain ⟨d, hrun, hguarded⟩ := guarded_of_ok ha
    rw [hguarded]
    exact Or.inr ⟨i, slot, d, hr, Desk.modified_of_ok hbook hrun, rfl, events_of_desk _ _ _⟩
  · obtain ⟨hengine, hevents, hanswer⟩ :=
      modify_refused world h.toInOrder fun i slot hr => hrevises ⟨i, slot, hr⟩
    refine Or.inl ⟨hengine, hevents, fun result hres => ?_⟩
    rw [ha, hres] at hanswer
    rcases hanswer with hr | ⟨reason, hr⟩ <;> cases hr

/-- A `modify` that finds no order or is rejected leaves everything as it was. -/
theorem modify_unmodified {id : OrderId} {request : ModifyRequest} {r : ModifyResult} (h : e.Sound)
    (ha : (e.modify world id request).answer = .ok r) (hnot : ∀ result, r ≠ .modified result) :
    (e.modify world id request).engine = e ∧ (e.modify world id request).events = [] := by
  rcases modify_of_ok h ha with ⟨hengine, hevents, -⟩ | ⟨i, slot, d, hr, hmod, hengine, hevents⟩
  · exact ⟨hengine, hevents⟩
  · cases hmod with
    | absent _ => exact ⟨hengine.trans (leave_same (route_of_locate? hr.found).1 rfl), hevents⟩
    | same _ _ _ _ => exact absurd rfl (hnot _)
    | lessened _ _ _ _ _ _ _ _ _ _ => exact absurd rfl (hnot _)
    | requeued _ _ _ _ _ _ _ => exact absurd rfl (hnot _)

end Ended

end Engine

end Bourse
