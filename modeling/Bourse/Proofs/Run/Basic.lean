import Bourse.Proofs.Engine.Listed

/-!
# Runs

A `History` is what has happened to an engine since it was made: its turns, the latest
first. A `Turn` is one call with the engine it found, the answer it gave, the events it
sent and the engine it left. Every sequence of calls makes a history (`Engine.follow`),
and every beginning of a history is a history (`History.upTo`), so what holds of the
engine at the end of all of them holds after each call of each of them. Histories are told
of a matching rule of any kind; a `Run` is one in price-time priority.
-/

namespace Bourse

/-- What can be asked of an engine. -/
inductive Call where
  | addInstrument (config : InstrumentConfig)
  | submit (world : Surroundings) (intent : OrderIntent)
  | cancel (world : Surroundings) (id : OrderId)
  | modify (world : Surroundings) (id : OrderId) (request : ModifyRequest)

/-- What a call is answered. -/
inductive Answer where
  | added (r : Except ConfigError Unit)
  | submitted (r : Except Fault (Except Rejection OrderResult))
  | cancelled (r : Except Fault CancelResult)
  | modified (r : Except Fault ModifyResult)

/-- The `Fault` that has stopped a call. -/
def Answer.fault? : Answer → Option Fault
  | .added _ => none
  | .submitted (.error f) | .cancelled (.error f) | .modified (.error f) => some f
  | .submitted (.ok _) | .cancelled (.ok _) | .modified (.ok _) => none

/-- A call and all that came of it. -/
structure Turn where
  before : Engine
  call : Call
  answer : Answer
  events : List Event
  after : Engine

/-- The trade that an event tells of. -/
def Event.trade? : Event → Option Trade
  | .trade t => some t
  | .update _ => none

/-- The trades that a `Turn` has told of. -/
def Turn.trades (t : Turn) : List Trade := t.events.filterMap Event.trade?

/-- What a call comes to. -/
def Engine.perform (e : Engine) (call : Call) : Turn :=
  match call with
  | .addInstrument config =>
    let r := e.addInstrument config
    ⟨e, call, .added r.answer, r.events, r.engine⟩
  | .submit world intent =>
    let r := e.submit world intent
    ⟨e, call, .submitted r.answer, r.events, r.engine⟩
  | .cancel world id =>
    let r := e.cancel world id
    ⟨e, call, .cancelled r.answer, r.events, r.engine⟩
  | .modify world id request =>
    let r := e.modify world id request
    ⟨e, call, .modified r.answer, r.events, r.engine⟩

theorem before_perform (e : Engine) (call : Call) : (e.perform call).before = e := by
  cases call <;> rfl

theorem call_perform (e : Engine) (call : Call) : (e.perform call).call = call := by
  cases call <;> rfl

/-- A call that is stopped by no fault has been answered. -/
theorem Engine.answered {e : Engine} {call : Call} (h : (e.perform call).answer.fault? = none) :
    match call with
    | .addInstrument _ => True
    | .submit world intent => ∃ res, (e.submit world intent).answer = .ok res
    | .cancel world id => ∃ res, (e.cancel world id).answer = .ok res
    | .modify world id request => ∃ res, (e.modify world id request).answer = .ok res := by
  cases call with
  | addInstrument config => trivial
  | submit world intent =>
      change (Answer.submitted (e.submit world intent).answer).fault? = none at h
      cases ha : (e.submit world intent).answer with
      | error f => rw [ha] at h; cases h
      | ok res => exact ⟨res, ha⟩
  | cancel world id =>
      change (Answer.cancelled (e.cancel world id).answer).fault? = none at h
      cases ha : (e.cancel world id).answer with
      | error f => rw [ha] at h; cases h
      | ok res => exact ⟨res, ha⟩
  | modify world id request =>
      change (Answer.modified (e.modify world id request).answer).fault? = none at h
      cases ha : (e.modify world id request).answer with
      | error f => rw [ha] at h; cases h
      | ok res => exact ⟨res, ha⟩

/-- What holds of the turn of an answered call of each kind holds of every turn that no fault has
stopped. -/
theorem Engine.perform_of_answered {e : Engine} {P : Turn → Prop} {call : Call}
    (addInstrument : ∀ config, P (e.perform (.addInstrument config)))
    (submit : ∀ world intent res, (e.submit world intent).answer = .ok res →
      P (e.perform (.submit world intent)))
    (cancel : ∀ world id res, (e.cancel world id).answer = .ok res →
      P (e.perform (.cancel world id)))
    (modify : ∀ world id request res, (e.modify world id request).answer = .ok res →
      P (e.perform (.modify world id request)))
    (h : (e.perform call).answer.fault? = none) : P (e.perform call) := by
  have hanswered := answered h
  cases call with
  | addInstrument config => exact addInstrument config
  | submit world intent =>
      obtain ⟨res, ha⟩ := hanswered
      exact submit world intent res ha
  | cancel world id =>
      obtain ⟨res, ha⟩ := hanswered
      exact cancel world id res ha
  | modify world id request =>
      obtain ⟨res, ha⟩ := hanswered
      exact modify world id request res ha

/-- A call that is stopped by a fault is answered by it. `addInstrument` never is. -/
theorem Engine.stopped {e : Engine} {call : Call} (h : (e.perform call).answer.fault? ≠ none) :
    match call with
    | .addInstrument _ => False
    | .submit world intent => ∃ f, (e.submit world intent).answer = .error f
    | .cancel world id => ∃ f, (e.cancel world id).answer = .error f
    | .modify world id request => ∃ f, (e.modify world id request).answer = .error f := by
  cases call with
  | addInstrument config => exact h rfl
  | submit world intent =>
      change (Answer.submitted (e.submit world intent).answer).fault? ≠ none at h
      cases ha : (e.submit world intent).answer with
      | error f => exact ⟨f, ha⟩
      | ok res => rw [ha] at h; exact absurd rfl h
  | cancel world id =>
      change (Answer.cancelled (e.cancel world id).answer).fault? ≠ none at h
      cases ha : (e.cancel world id).answer with
      | error f => exact ⟨f, ha⟩
      | ok res => rw [ha] at h; exact absurd rfl h
  | modify world id request =>
      change (Answer.modified (e.modify world id request).answer).fault? ≠ none at h
      cases ha : (e.modify world id request).answer with
      | error f => exact ⟨f, ha⟩
      | ok res => rw [ha] at h; exact absurd rfl h

/-- The turns that have led from an engine without instruments to an engine, the latest first, under
a matching rule. -/
inductive History (rule : MatchingRule) : List Turn → Engine → Prop
  | start : History rule [] (.empty rule)
  | turn {past : List Turn} {e : Engine} (call : Call) :
      History rule past e → History rule (e.perform call :: past) (e.perform call).after

/-- A history in price-time priority. -/
abbrev Run : List Turn → Engine → Prop := History .priceTime

/-- No call of a run has stopped at a fault. -/
def Faultless (past : List Turn) : Prop := ∀ t ∈ past, t.answer.fault? = none

instance (past : List Turn) : Decidable (Faultless past) := by
  unfold Faultless
  infer_instance

/-- What a sequence of calls adds to the past, and the engine it leaves. -/
def Engine.follow (e : Engine) (past : List Turn) : List Call → List Turn × Engine
  | [] => (past, e)
  | call :: rest => (e.perform call).after.follow (e.perform call :: past) rest

/-- What `follow` adds to the past does not depend on it. -/
theorem Engine.follow_past (e : Engine) (past : List Turn) (calls : List Call) :
    (e.follow past calls).1 = (e.follow [] calls).1 ++ past := by
  induction calls generalizing past e with
  | nil => rfl
  | cons call rest ih =>
      unfold follow
      rw [ih, ih _ [_], List.append_assoc]
      rfl

/-- The engine that `follow` leaves does not depend on the past. -/
theorem Engine.follow_engine (e : Engine) (past : List Turn) (calls : List Call) :
    (e.follow past calls).2 = (e.follow [] calls).2 := by
  induction calls generalizing past e with
  | nil => rfl
  | cons call rest ih =>
      unfold follow
      rw [ih, ih _ [_]]

namespace History

variable {rule : MatchingRule} {past : List Turn} {e : Engine}

/-- The beginning of a history up to one of its turns is a history. -/
theorem upTo (h : History rule past e) {t : Turn} (ht : t ∈ past) :
    ∃ earlier, History rule (t :: earlier) t.after ∧ (t :: earlier) <:+ past := by
  induction h with
  | start => cases ht
  | @turn past e call h ih =>
      rcases List.mem_cons.mp ht with rfl | ht
      · exact ⟨past, h.turn call, List.suffix_refl _⟩
      · obtain ⟨earlier, hearlier, hsuffix⟩ := ih ht
        exact ⟨earlier, hearlier, hsuffix.trans (List.suffix_cons _ _)⟩

/-- Every turn of a history is a call on an engine that a history has led to. -/
theorem of_suffix {earlier : List Turn} {t : Turn} (h : History rule past e)
    (ht : t :: earlier <:+ past) :
    ∃ before call, History rule earlier before ∧ t = before.perform call := by
  induction h with
  | start => exact absurd (List.suffix_nil.mp ht) (List.cons_ne_nil t earlier)
  | @turn past e call h ih =>
      rcases List.suffix_cons_iff.mp ht with heq | ht
      · cases heq
        exact ⟨e, call, h, rfl⟩
      · exact ih ht

theorem follow (h : History rule past e) (calls : List Call) :
    History rule (e.follow past calls).1 (e.follow past calls).2 := by
  induction calls generalizing past e with
  | nil => exact h
  | cons call rest ih => exact ih (h.turn call)

end History

/-- Whatever has stopped a call, the engine stays `Listed`. -/
theorem Engine.Listed.perform {e : Engine} (h : e.Listed) (call : Call) :
    (e.perform call).after.Listed := by
  cases call with
  | addInstrument config => exact h.addInstrument config
  | submit world intent =>
      exact h.of_configs (Engine.unshaken_configs.submit e world intent fun _ _ _ => trivial)
  | cancel world id =>
      exact h.of_configs (Engine.unshaken_configs.cancel e world id fun _ _ _ => trivial)
  | modify world id request =>
      exact h.of_configs
        (Engine.unshaken_configs.modify e world id request fun _ _ _ => trivial)

theorem History.listed {rule : MatchingRule} {past : List Turn} {e : Engine}
    (h : History rule past e) : e.Listed := by
  induction h with
  | start => exact Engine.listed_empty _
  | turn call _ ih => exact ih.perform call

/-- Surroundings on the first day of the year 2000, with an identity for an order that brings
none. -/
def Surroundings.handing (n : Nat) : Surroundings :=
  ⟨.millennium, ⟨.ofNat n⟩, fun _ => default⟩

theorem Desk.Narrates.trades_eq {world : Surroundings} {taker : Order} {fills : List Fill}
    {trades : List Trade} {events : List Event}
    (h : Desk.Narrates world taker fills trades events) :
    events.filterMap Event.trade? = trades ∧
      trades.map (fun t => (t.maker, t.taker, t.price, t.quantity)) =
        fills.map fun f => (f.maker.id, taker.id, f.price, f.quantity) := by
  induction h with
  | none => exact ⟨rfl, rfl⟩
  | some _ _ ih =>
      refine ⟨congrArg (List.cons _) ih.1, ?_⟩
      simp [Desk.tradeOf, ih.2]

/-- `Executed` work tells of the trades of its matching and of no others. -/
theorem Desk.Executed.trades_eq {world : Surroundings} {o : Order} {d d' : Desk} {r : OrderResult}
    (h : Desk.Executed world o d r d') (hs : d.book.Sound) (he : d.emitted = []) :
    d'.emitted.filterMap Event.trade? = [] ∨
      ∃ moments final, Encounter.Trades ⟨o, d.book⟩ moments final ∧
        (d'.emitted.filterMap Event.trade?).map
            (fun t => (t.maker, t.taker, t.price, t.quantity)) =
          moments.map fun m => (m.2.maker.id, o.id, m.2.price, m.2.quantity) := by
  cases h with
  | killed _ _ _ _ hemitted =>
      rw [hemitted, he]
      exact Or.inl rfl
  | @matched moments final _ _ _ u _ _ _ hm _ hstory _ _ hemitted =>
      obtain ⟨htrades, hterms⟩ := hstory.trades_eq
      refine Or.inr ⟨moments, final, hm, ?_⟩
      rw [hemitted, he, List.nil_append, List.filterMap_append, htrades]
      show List.map _ (_ ++ []) = _
      rw [List.append_nil, hterms, List.map_map, (hm.filled hs).same.id_eq]
      rfl

end Bourse
