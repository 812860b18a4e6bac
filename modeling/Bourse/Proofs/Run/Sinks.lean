import Bourse.Proofs.Delivery.Venue
import Bourse.Proofs.Run.Sequence

/-!
# Sinks have no influence

Calls are made at venues that differ in their `Sinks` alone. As every operation of a venue
comes to what the engine alone says of it, so does every run (`follow_eq`): the callers
are told the same and the engines are the same after each call, whatever the sinks are and
whatever they fail on. What a sink is called with is the same too, so all that a failure
costs is the event that it is a failure on.
-/

namespace Bourse

namespace Venue

/-- What the caller of an operation is told, and the venue as it is left. If the failure of a sink
unwound the operation, the caller would have no answer but the event. -/
def conclude {α : Type} (wrap : Except Fault α → Answer) :
    EStateM.Result Halt Venue α → Except Event Answer × Venue
  | .ok a v => (.ok (wrap (.ok a)), v)
  | .error (.fault f) v => (.ok (wrap (.error f)), v)
  | .error (.sink e) v => (.error e, v)

/-- Makes a call at a venue. -/
def perform (v : Venue) : Call → Except Event Answer × Venue
  | .addInstrument config =>
    let (answer, v) := v.addInstrument config
    (.ok (.added answer), v)
  | .submit world intent => conclude .submitted (submit world intent v)
  | .cancel world id => conclude .cancelled (cancel world id v)
  | .modify world id request => conclude .modified (modify world id request v)

/-- Makes calls at a venue, one after the other: what the callers are told, and the venue as it is
left. -/
def follow (v : Venue) : List Call → List (Except Event Answer) × Venue
  | [] => ([], v)
  | call :: rest =>
    let (answer, v) := v.perform call
    let (answers, v) := v.follow rest
    (answer :: answers, v)

/-- A venue has become another while its engine has become `engine` and has sent these events. -/
structure Becomes (v : Venue) (engine : Engine) (events : List Event) (v' : Venue) : Prop where
  engine_eq : v'.engine = engine
  handed_eq : v'.handed = v.handed ++ events
  sinks_eq : v'.sinks = (v.sinks.absorb (events.map .event)).1

theorem Becomes.trans {v v₁ v₂ : Venue} {e₁ e₂ : Engine} {events₁ events₂ : List Event}
    (h : v.Becomes e₁ events₁ v₁) (h' : v₁.Becomes e₂ events₂ v₂) :
    v.Becomes e₂ (events₁ ++ events₂) v₂ where
  engine_eq := h'.engine_eq
  handed_eq := by rw [h'.handed_eq, h.handed_eq, List.append_assoc]
  sinks_eq := by rw [h'.sinks_eq, h.sinks_eq, List.map_append, Sinks.absorb_append]

theorem conclude_result {α : Type} (wrap : Except Fault α → Answer) (v : Venue)
    (r : Reply Fault α) :
    (conclude wrap (v.result r)).1 = .ok (wrap r.answer) ∧
      v.Becomes r.engine r.events (conclude wrap (v.result r)).2 := by
  have hsinks := (Sinks.absorb_events v.sinks r.output).symm
  unfold result
  cases r.answer with
  | ok a => exact ⟨rfl, rfl, rfl, hsinks⟩
  | error f => exact ⟨rfl, rfl, rfl, hsinks⟩

/-- A call at a venue is the call of its engine, `Engine.perform`. No sink's failure comes through.
-/
theorem perform_eq (v : Venue) (call : Call) :
    (v.perform call).1 = .ok (v.engine.perform call).answer ∧
      v.Becomes (v.engine.perform call).after (v.engine.perform call).events
        (v.perform call).2 := by
  cases call with
  | addInstrument config =>
      have hevents : (v.engine.perform (.addInstrument config)).events = [] :=
        Engine.addInstrument_events v.engine config
      refine ⟨rfl, rfl, ?_, ?_⟩
      · rw [hevents, List.append_nil]
        rfl
      · rw [hevents]
        rfl
  | submit world intent =>
      have hrun := congrArg (conclude .submitted) (submit_run world intent v)
      have hresult := conclude_result .submitted v (v.engine.submit world intent)
      rw [← hrun] at hresult
      exact hresult
  | cancel world id =>
      have hrun := congrArg (conclude .cancelled) (cancel_run world id v)
      have hresult := conclude_result .cancelled v (v.engine.cancel world id)
      rw [← hrun] at hresult
      exact hresult
  | modify world id request =>
      have hrun := congrArg (conclude .modified) (modify_run world id request v)
      have hresult := conclude_result .modified v (v.engine.modify world id request)
      rw [← hrun] at hresult
      exact hresult

/-- A run at a venue is the run of its engine, `Engine.follow`. -/
theorem follow_eq (v : Venue) (calls : List Call) :
    (v.follow calls).1 = (v.engine.follow [] calls).1.reverse.map (fun t => .ok t.answer) ∧
      v.Becomes (v.engine.follow [] calls).2 (delivered (v.engine.follow [] calls).1)
        (v.follow calls).2 := by
  induction calls generalizing v with
  | nil => exact ⟨rfl, rfl, (List.append_nil _).symm, rfl⟩
  | cons call rest ih =>
      obtain ⟨hanswer, hcall⟩ := v.perform_eq call
      obtain ⟨hanswers, hrest⟩ := ih (v.perform call).2
      rw [hcall.engine_eq] at hanswers hrest
      have hpast : (v.engine.follow [] (call :: rest)).1 =
          ((v.engine.perform call).after.follow [] rest).1 ++ [v.engine.perform call] :=
        Engine.follow_past _ _ rest
      have hleft : (v.engine.follow [] (call :: rest)).2 =
          ((v.engine.perform call).after.follow [] rest).2 :=
        Engine.follow_engine _ _ rest
      rw [hpast, hleft]
      constructor
      · show (v.perform call).1 :: ((v.perform call).2.follow rest).1 = _
        rw [hanswer, hanswers, List.reverse_append]
        rfl
      · rw [delivered_append, delivered_cons, delivered_nil, List.nil_append]
        exact hcall.trans hrest

end Venue

/-- Sinks have no influence. Whatever calls are made, in the same surroundings, at two venues that
differ in their sinks, all of which are `AtWork`: the callers are told the same, and that is what
the engine alone answers, never the failure of a sink; the engines are left the same; and the sinks
are called with the same events, which are all that the engine has sent. A sink `keeps` of its
stream every event that it does not itself fail on, in the order of the stream. -/
theorem sinks_have_no_influence (rule : MatchingRule) {s s' : Sinks} (hs : s.AtWork)
    (hs' : s'.AtWork) (calls : List Call) :
    let past := ((Engine.empty rule).follow [] calls).1
    let run := (Venue.opened rule s).follow calls
    let run' := (Venue.opened rule s').follow calls
    (run.1 = run'.1 ∧ run.2.engine = run'.2.engine ∧ run.2.handed = run'.2.handed) ∧
      run.1 = past.reverse.map (fun t => .ok t.answer) ∧ run.2.handed = delivered past ∧
      ∀ kind,
        (run.2.sinks.of kind).kept = (s.of kind).kept ++
            (delivered past).filter (fun e => e.kind = kind ∧ (s.of kind).keeps e) ∧
          (run'.2.sinks.of kind).kept = (s'.of kind).kept ++
            (delivered past).filter (fun e => e.kind = kind ∧ (s'.of kind).keeps e) := by
  obtain ⟨hanswers, hbecomes⟩ := (Venue.opened rule s).follow_eq calls
  obtain ⟨hanswers', hbecomes'⟩ := (Venue.opened rule s').follow_eq calls
  have hkept {t : Sinks} (ht : t.AtWork) (kind : EventKind) :
      (((Venue.opened rule t).follow calls).2.sinks.of kind).kept = (t.of kind).kept ++
        (delivered ((Engine.empty rule).follow [] calls).1).filter
          (fun e => e.kind = kind ∧ (t.of kind).keeps e) := by
    rw [((Venue.opened rule t).follow_eq calls).2.sinks_eq]
    exact Sinks.kept_absorb (ht kind) _
  have hhanded := hbecomes.handed_eq.trans (List.nil_append _)
  have hhanded' := hbecomes'.handed_eq.trans (List.nil_append _)
  have hengine := hbecomes.engine_eq.trans hbecomes'.engine_eq.symm
  exact ⟨⟨hanswers.trans hanswers'.symm, hengine, hhanded.trans hhanded'.symm⟩, hanswers, hhanded,
    fun kind => ⟨hkept hs kind, hkept hs' kind⟩⟩

/-- Sinks that fail on the second update and on every trade. -/
def faltering : Sinks :=
  ⟨.failing (fun e => e.sequence = 2) [], .failing (fun _ => true) []⟩

/-- A channel with room for one event, whose consumer keeps up, and a memory. -/
def diligent : Sinks := ⟨.channel (.opened "order-updates" (.lossless 1)), .memory []⟩

theorem sinks_have_no_influence_faltering :
    let run := (Venue.opened .priceTime faltering).follow haggling
    let run' := (Venue.opened .priceTime diligent).follow haggling
    (faltering.AtWork ∧ diligent.AtWork) ∧
      (run.1 = run'.1 ∧ run.2.engine = run'.2.engine ∧ run.2.handed = run'.2.handed) ∧
      run.2.handed.map Event.sequence = [1, 2, 3, 4, 5, 6, 7] ∧
      run.2.sinks.updates.kept.map Event.sequence = [1, 3, 5, 6, 7] ∧
      run.2.sinks.trades.kept = [] ∧
      run'.2.sinks.updates.kept.map Event.sequence = [1, 2, 3, 5, 6, 7] ∧
      run'.2.sinks.trades.kept.map Event.sequence = [4] := by
  have hfaltering : faltering.AtWork := fun kind => by cases kind <;> trivial
  have hdiligent : diligent.AtWork := fun kind => by
    cases kind with
    | update => exact ⟨rfl, by decide, rfl, rfl⟩
    | trade => trivial
  obtain ⟨hsame, -⟩ := sinks_have_no_influence .priceTime hfaltering hdiligent haggling
  refine ⟨⟨hfaltering, hdiligent⟩, hsame, ?_⟩
  decide +kernel

end Bourse
