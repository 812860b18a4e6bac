import Bourse.Delivery.Venue
import Bourse.Proofs.Engine.Calls

/-!
# What a venue does with its sinks

Each operation of a `Venue` is opened once, and it comes to what the engine alone says of
it: the same engine and the same answer, with the output `told` to the sinks and to the
log. So the failure of a sink goes no further than the call of the sink. `guarded` is the
one to look at, for it would take a route back: the engine is put back before the first
delivery, and no delivery unwinds it (`deliver_run`).

A sink that is `AtWork` keeps, of the events of its stream, all but those it fails on,
whatever it and the other sink do with the rest.
-/

namespace Bourse

namespace Work

variable {α β : Type}

theorem run_bind (act : Work α) (next : α → Work β) (v : Venue) :
    (act >>= next) v =
      match act v with
      | .ok a v' => next a v'
      | .error h v' => .error h v' := by
  change EStateM.bind act next v = _
  unfold EStateM.bind
  cases act v <;> rfl

theorem run_tryCatch (act : Work α) (handle : Halt → Work α) (v : Venue) :
    (tryCatch act handle : Work α) v =
      match act v with
      | .ok a v' => .ok a v'
      | .error h v' => handle h v' := by
  change EStateM.tryCatch act handle v = _
  unfold EStateM.tryCatch
  cases act v <;> rfl

@[simp] theorem run_pure (a : α) (v : Venue) : (pure a : Work α) v = .ok a v := rfl

@[simp] theorem run_get (v : Venue) : (get : Work Venue) v = .ok v v := rfl

@[simp] theorem run_throw (h : Halt) (v : Venue) : (throw h : Work α) v = .error h v := rfl

end Work

namespace Sinks

theorem absorb_append (s : Sinks) (xs ys : List Output) :
    s.absorb (xs ++ ys) =
      (((s.absorb xs).1.absorb ys).1, (s.absorb xs).2 ++ ((s.absorb xs).1.absorb ys).2) := by
  induction xs generalizing s with
  | nil => simp [absorb]
  | cons x xs ih =>
      cases x with
      | notice n => simp [absorb, ih]
      | event e => simp [absorb, ih]

/-- `deliver` is `call?`, with its failure going to the log. -/
theorem deliver_eq_call? (s : Sinks) (e : Event) :
    s.deliver e = (s.call? e).getD (s, [.eventDropped e]) := by
  have haccept (s : Sink) : s.accept e = (s.call? e).getD (s, [.eventDropped e]) := by
    cases s with
    | failing fails kept => by_cases h : fails e <;> simp [Sink.accept, Sink.call?, h]
    | ignore | log | memory _ | channel _ => rfl
  cases e with
  | update u =>
      simp only [deliver, call?]
      rw [haccept]
      cases s.updates.call? (.update u) <;> rfl
  | trade t =>
      simp only [deliver, call?]
      rw [haccept]
      cases s.trades.call? (.trade t) <;> rfl

end Sinks

namespace Venue

variable {α : Type}

/-- The venue when its sinks and its log have been told of an output. -/
def told (v : Venue) (output : List Output) : Venue :=
  { v with
    sinks := (v.sinks.absorb output).1
    handed := v.handed ++ output.filterMap Output.event?
    log := v.log ++ (v.sinks.absorb output).2 }

/-- What a `Reply` comes to at a venue. -/
def result (v : Venue) (r : Reply Fault α) : EStateM.Result Halt Venue α :=
  match r.answer with
  | .ok a => .ok a { v.told r.output with engine := r.engine }
  | .error f => .error (.fault f) { v.told r.output with engine := r.engine }

@[simp] theorem engine_told (v : Venue) (output : List Output) :
    (v.told output).engine = v.engine := rfl

@[simp] theorem told_nil (v : Venue) : v.told [] = v := by
  simp [told, Sinks.absorb]

theorem told_append (v : Venue) (xs ys : List Output) :
    v.told (xs ++ ys) = (v.told xs).told ys := by
  simp [told, Sinks.absorb_append]

theorem told_engine (v : Venue) (e : Engine) (xs : List Output) :
    ({ v with engine := e } : Venue).told xs = { v.told xs with engine := e } := rfl

theorem note_run (n : Notice) (v : Venue) : note n v = .ok () (v.told [.notice n]) := by
  have hnone : [Output.notice n].filterMap Output.event? = [] := rfl
  unfold told
  rw [hnone, List.append_nil]
  rfl

theorem setEngine_run (e : Engine) (v : Venue) :
    setEngine e v = .ok () { v with engine := e } := rfl

/-- `deliver` comes to its end, whatever the sinks fail on. -/
theorem deliver_run (events : List Event) (v : Venue) :
    deliver events v = .ok () (v.told (events.map .event)) := by
  induction events generalizing v with
  | nil => rw [List.map_nil, told_nil]; rfl
  | cons e events ih =>
      have hone : (tryCatch (hand e) (fun _ => note (.eventDropped e)) : Work Unit) v =
          .ok () (v.told [.event e]) := by
        rw [Work.run_tryCatch]
        unfold hand
        cases hcall : v.sinks.call? e with
        | none => simp [told, Sinks.absorb, Sinks.deliver_eq_call?, hcall, note_run, Output.event?]
        | some p => simp [told, Sinks.absorb, Sinks.deliver_eq_call?, hcall, Output.event?]
      unfold deliver
      rw [Work.run_bind, hone]
      exact (ih _).trans (congrArg _ (told_append v [.event e] _).symm)

theorem unwind_run (f : Fault) (v : Venue) :
    (unwind f : Work α) v = .error (.fault f) (v.told (Engine.faultNotices f)) := by
  cases f with
  | violation w =>
      show _ = EStateM.Result.error _ (v.told [.notice (.invariantViolated w)])
      simp only [unwind, Work.run_bind, note_run, Work.run_throw]
  | arithmetic _ | crossedAtRest _ => simp [unwind, Engine.faultNotices]

theorem exclusive_run (index : Nat) (slot : Slot) (act : Attempt Desk α) (v : Venue) :
    exclusive index slot act v = v.result (v.engine.exclusive index slot act) := by
  unfold exclusive Engine.exclusive result
  rw [Work.run_bind, Work.run_get]
  dsimp only
  cases Desk.atRest act (v.engine.desk slot.book) with
  | ok a d => simp only [Work.run_bind, setEngine_run, deliver_run, Work.run_pure, told_engine]; rfl
  | error f d => simp only [Work.run_bind, setEngine_run, unwind_run, told_engine]

theorem letGo_run {index : Nat} {slot : Slot} {v : Venue} (id : OrderId)
    (hslot : v.engine.slots[index]? = some slot) :
    letGo index id v = .ok ()
      (if slot.book.contains id then v
        else { v with engine := { v.engine with routes := v.engine.routes.erase id } }) := by
  unfold letGo
  rw [Work.run_bind, Work.run_get]
  dsimp only
  rw [hslot]
  dsimp only
  split <;> rfl

/-- A route goes only where the work at the desk was stopped, for nothing else unwinds it. -/
theorem guarded_run {index : Nat} {slot : Slot} {v : Venue} (id : OrderId) (act : Attempt Desk α)
    (hslot : v.engine.slots[index]? = some slot) :
    guarded index slot id act v = v.result (v.engine.guarded index slot id act) := by
  unfold guarded Engine.guarded
  rw [Work.run_tryCatch, exclusive_run]
  unfold Engine.exclusive result
  cases Desk.atRest act (v.engine.desk slot.book) with
  | ok a d => rfl
  | error f d =>
      dsimp only
      have hleft : (v.engine.leave index d).slots[index]? = some { slot with book := d.book } := by
        rw [Engine.slots_leave hslot, if_pos rfl]
      rw [Work.run_bind, letGo_run id hleft]
      dsimp only
      rw [Work.run_bind, note_run, told_append]
      by_cases hheld : d.book.contains id = true
      · rw [if_pos hheld, if_pos hheld]
        rfl
      · rw [if_neg hheld, if_neg hheld]
        rfl

theorem result_told {v : Venue} {r : Reply Fault α} (xs : List Output) :
    (v.told xs).result r = v.result { r with output := xs ++ r.output } := by
  simp only [result, told_append]

theorem rejectUnlisted_run (world : Surroundings) (order : Order) (v : Venue) :
    rejectUnlisted world order v = v.result (v.engine.rejectUnlisted world order) := by
  unfold rejectUnlisted Engine.rejectUnlisted result
  dsimp only
  rw [Work.run_bind, note_run]
  dsimp only
  rw [Work.run_bind, Work.run_get]
  dsimp only [engine_told]
  cases Desk.refuse world order (.unknownSymbol order.symbol)
      (v.engine.desk (.empty order.symbol)) with
  | ok r d =>
      simp only [Work.run_bind, setEngine_run, deliver_run, Work.run_pure, told_engine,
        ← told_append]
      rfl
  | error f d =>
      simp only [Work.run_bind, setEngine_run, unwind_run, told_engine, ← told_append]
      rfl

theorem rejectListed_run (world : Surroundings) (index : Nat) (slot : Slot) (order : Order)
    (reason : RejectReason) (v : Venue) :
    rejectListed world index slot order reason v =
      v.result (v.engine.rejectListed world index slot order reason) := by
  unfold rejectListed Engine.rejectListed
  rw [Work.run_bind, note_run]
  dsimp only
  rw [Work.run_bind, exclusive_run, engine_told, result_told]
  unfold result
  dsimp only
  cases (v.engine.exclusive index slot (Desk.refuse world order reason)).answer <;> rfl

theorem enter_run {index : Nat} {slot : Slot} {v : Venue} (world : Surroundings) (order : Order)
    (hslot : v.engine.slots[index]? = some slot) :
    enter world index slot order v = v.result (v.engine.enter world index slot order) := by
  have hguarded (engine : Engine) (hsame : engine.slots = v.engine.slots)
      (act : Attempt Desk OrderResult) :
      guarded index slot order.id act { v with engine } =
        ({ v with engine } : Venue).result (engine.guarded index slot order.id act) :=
    guarded_run order.id act (show engine.slots[index]? = some slot from hsame ▸ hslot)
  unfold enter Engine.enter
  rw [Work.run_bind, Work.run_get]
  dsimp only
  split
  · simp only [Work.run_bind, setEngine_run, note_run, Work.run_pure]
    rfl
  · rw [Work.run_bind, setEngine_run]
    dsimp only
    rw [Work.run_bind, hguarded]
    case hsame => rfl
    unfold result
    dsimp only
    generalize Engine.guarded _ index slot order.id _ = r
    cases r.answer with
    | error f => rfl
    | ok result =>
        dsimp only
        rw [Work.run_bind, note_run]
        dsimp only
        rw [Work.run_pure, told_append]
        rfl

theorem submit_run (world : Surroundings) (intent : OrderIntent) (v : Venue) :
    submit world intent v = v.result (v.engine.submit world intent) := by
  unfold submit Engine.submit
  rw [Work.run_bind, Work.run_get]
  dsimp only
  cases hl : v.engine.lookup? intent.symbol with
  | none => exact rejectUnlisted_run world _ v
  | some place =>
      obtain ⟨index, slot⟩ := place
      dsimp only
      cases Engine.checkIntent slot.config intent with
      | error o =>
          cases o with
          | fault f => simp [result]
          | refusal reason => exact rejectListed_run world index slot _ reason v
      | ok u => exact enter_run world _ (Engine.slot_of_lookup? hl)

theorem cancel_run (world : Surroundings) (id : OrderId) (v : Venue) :
    cancel world id v = v.result (v.engine.cancel world id) := by
  unfold cancel Engine.cancel
  rw [Work.run_bind, Work.run_get]
  dsimp only
  cases v.engine.locate? id with
  | none => simp [result]
  | some place =>
      obtain ⟨index, slot⟩ := place
      dsimp only
      rw [Work.run_bind, exclusive_run]
      generalize v.engine.exclusive index slot (Desk.cancel world id) = r
      obtain ⟨engine, answer, output⟩ := r
      unfold result
      cases answer with
      | error f => rfl
      | ok res =>
          cases res with
          | notFound => rfl
          | cancelled order =>
              dsimp only
              rw [Work.run_bind, note_run]
              dsimp only
              rw [Work.run_pure, told_append]
              rfl

theorem modify_run (world : Surroundings) (id : OrderId) (request : ModifyRequest) (v : Venue) :
    modify world id request v = v.result (v.engine.modify world id request) := by
  unfold modify Engine.modify
  rw [Work.run_bind, Work.run_get]
  dsimp only
  cases hl : v.engine.locate? id with
  | none => simp [result]
  | some place =>
      obtain ⟨index, slot⟩ := place
      dsimp only
      cases Engine.checkRequest slot.config request with
      | error o =>
          cases o with
          | fault f => simp [result]
          | refusal reason =>
              dsimp only
              rw [Work.run_bind, note_run]
              rfl
      | ok u => exact guarded_run id _ (Engine.route_of_locate? hl).1

end Venue

/-! ## What sinks keep -/

namespace Sink

/-- The sink has nothing on its hands and takes on an event as soon as it comes. -/
def AtWork : Sink → Prop
  | .ignore | .log | .memory _ | .failing _ _ => True
  | .channel c =>
    c.isOpen = true ∧ 0 < c.delivery.capacity ∧ c.queue = [] ∧ c.inHand = none

/-- The sink keeps an event that `call?` hands to it. -/
def keeps (s : Sink) (e : Event) : Bool :=
  match s with
  | .ignore | .log => false
  | .memory _ | .channel _ => true
  | .failing fails _ => !fails e

/-- A call leaves a sink `AtWork`, which keeps the event or does not and the later ones as before.
-/
structure Served (s : Sink) (e : Event) (s' : Sink) : Prop where
  atWork : s'.AtWork
  kept_eq : s'.kept = s.kept ++ if s.keeps e then [e] else []
  keeps_eq : s'.keeps = s.keeps

theorem AtWork.served {s : Sink} (h : s.AtWork) (e : Event) : s.Served e (s.accept e).1 := by
  cases s with
  | ignore | log => exact ⟨trivial, (List.append_nil _).symm, rfl⟩
  | memory kept => exact ⟨trivial, rfl, rfl⟩
  | failing fails kept =>
      by_cases hf : fails e
      · simp only [accept, hf, if_true]
        exact ⟨trivial, by simp [keeps, hf], rfl⟩
      · simp only [accept, hf, Bool.false_eq_true, if_false]
        exact ⟨trivial, by simp [keeps, hf, Sink.kept], rfl⟩
  | channel c =>
      obtain ⟨hopen, hroom, hqueue, hhand⟩ := h
      have hnotFull : c.isFull = false := by
        simp only [Channel.isFull, hqueue, List.length_nil, decide_eq_false_iff_not]
        omega
      have hoffer : c.offer e =
          some (({ c with queue := [e] } : Channel Event).count true, []) := by
        simp [Channel.offer, Channel.push?, hopen, hnotFull, hqueue]
      -- the worker takes the event from an empty queue and hands it on at once
      simp only [accept, hoffer]
      simp only [Channel.drain, Channel.count, if_true, Channel.finish, hhand,
        List.length_singleton, Channel.work, Channel.take, steady, Bool.false_eq_true, if_false]
      exact ⟨⟨hopen, hroom, rfl, rfl⟩, rfl, rfl⟩

end Sink

namespace Sinks

/-- The sink of a stream. -/
def of (s : Sinks) : EventKind → Sink
  | .update => s.updates
  | .trade => s.trades

/-- Both sinks are `AtWork`. -/
def AtWork (s : Sinks) : Prop := ∀ kind, (s.of kind).AtWork

theorem of_deliver (s : Sinks) (e : Event) (kind : EventKind) :
    (s.deliver e).1.of kind = if e.kind = kind then ((s.of kind).accept e).1 else s.of kind := by
  cases e <;> cases kind <;> rfl

/-- A sink keeps of its stream what `keeps` says, in the order of the stream. -/
theorem kept_absorb {s : Sinks} {kind : EventKind} (h : (s.of kind).AtWork) (events : List Event) :
    (((s.absorb (events.map .event)).1.of kind).kept =
      (s.of kind).kept ++ events.filter fun e => e.kind = kind ∧ (s.of kind).keeps e) := by
  induction events generalizing s with
  | nil => exact (List.append_nil _).symm
  | cons e events ih =>
      show (((s.deliver e).1.absorb (events.map .event)).1.of kind).kept = _
      by_cases hkind : e.kind = kind
      · have hof := of_deliver s e kind
        rw [if_pos hkind] at hof
        have hserved := h.served e
        rw [← hof] at hserved
        rw [ih hserved.atWork, hserved.kept_eq, hserved.keeps_eq, List.append_assoc]
        by_cases hkeeps : (s.of kind).keeps e <;> simp [hkind, hkeeps]
      · have hof := of_deliver s e kind
        rw [if_neg hkind] at hof
        rw [ih (hof ▸ h), hof]
        simp [hkind]

end Sinks

end Bourse
