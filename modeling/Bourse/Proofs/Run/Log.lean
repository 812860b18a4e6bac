import Bourse.Delivery.Sink
import Bourse.Proofs.Engine.Told
import Bourse.Proofs.Run.History
import Bourse.Proofs.Run.Priority

/-!
# The log of updates

Whoever records the updates of a run can tell from the `updateLog`, at the end of every
call, which orders rest and how each of them stands. Only the latest update of an identity
counts (`lastUpdate?`). It is enough that a call tells all that it does (`Tells`): what
the call has told overrides what was known, and of what it has not told nothing has
changed. Rejections are passed over, for they are not about an order that was ever in a
book.
-/

namespace Bourse

/-- The updates that a `Turn` has told of. -/
def Turn.updates (t : Turn) : List OrderUpdate := t.events.filterMap Event.update?

/-- The sinks of a run that record all they are delivered. -/
def recorded : List Turn → Sinks
  | [] => ⟨.memory [], .memory []⟩
  | t :: past => ((recorded past).absorb (t.events.map .event)).1

/-- The updates that have been recorded, oldest first. -/
def updateLog (past : List Turn) : List OrderUpdate :=
  (recorded past).updates.kept.filterMap Event.update?

/-- An update of an identity, rejections apart. -/
def OrderUpdate.Concerns (u : OrderUpdate) (id : OrderId) : Prop :=
  u.orderId = id ∧ u.status ≠ .rejected

instance (u : OrderUpdate) (id : OrderId) : Decidable (u.Concerns id) := by
  unfold OrderUpdate.Concerns
  infer_instance

/-- The latest update of an identity that has been recorded, rejections apart. -/
def lastUpdate? (past : List Turn) (id : OrderId) : Option OrderUpdate :=
  (updateLog past).reverse.find? fun u => u.Concerns id

/-! ## What is recorded -/

namespace Sinks

/-- Notices do not reach the sinks. -/
theorem absorb_events (s : Sinks) (output : List Output) :
    (s.absorb ((output.filterMap Output.event?).map .event)).1 = (s.absorb output).1 := by
  induction output generalizing s with
  | nil => rfl
  | cons o output ih =>
      cases o with
      | notice n => exact ih s
      | event e => exact ih (s.deliver e).1

/-- A `memory` keeps what it is delivered, one after the other. -/
theorem absorb_memory (updates trades events : List Event) :
    ((⟨.memory updates, .memory trades⟩ : Sinks).absorb (events.map .event)).1 =
      ⟨.memory (updates ++ events.filter fun e => e.kind = .update),
        .memory (trades ++ events.filter fun e => e.kind = .trade)⟩ := by
  induction events generalizing updates trades with
  | nil => simp [absorb]
  | cons e events ih =>
      cases e with
      | trade t =>
          refine (ih updates (trades ++ [.trade t])).trans ?_
          rw [List.append_assoc]
          rfl
      | update u =>
          refine (ih (updates ++ [.update u]) trades).trans ?_
          rw [List.append_assoc]
          rfl

end Sinks

/-- Each of the two sinks has recorded what was `delivered` of its kind. -/
theorem recorded_eq (past : List Turn) :
    recorded past = ⟨.memory ((delivered past).filter fun e => e.kind = .update),
      .memory ((delivered past).filter fun e => e.kind = .trade)⟩ := by
  induction past with
  | nil => rfl
  | cons t past ih =>
      rw [recorded, ih, Sinks.absorb_memory]
      simp

theorem updateLog_eq (past : List Turn) :
    updateLog past = (delivered past).filterMap Event.update? := by
  unfold updateLog
  rw [recorded_eq]
  dsimp only [Sink.kept]
  rw [List.filterMap_filter]
  refine congrArg (fun f => List.filterMap f _) (funext fun e => ?_)
  cases e <;> rfl

/-- What a turn tells is put to the `updateLog` after all that was told before. -/
theorem updateLog_cons (t : Turn) (past : List Turn) :
    updateLog (t :: past) = updateLog past ++ t.updates := by
  rw [updateLog_eq, updateLog_eq, delivered_cons, List.filterMap_append]
  rfl

theorem lastUpdate?_cons (t : Turn) (past : List Turn) (id : OrderId) :
    lastUpdate? (t :: past) id =
      (t.updates.reverse.find? fun u => u.Concerns id).or (lastUpdate? past id) := by
  unfold lastUpdate?
  rw [updateLog_cons, List.reverse_append, List.find?_append]

theorem concerns_of_find? {us : List OrderUpdate} {id : OrderId} {u : OrderUpdate}
    (h : us.find? (fun u => u.Concerns id) = some u) : u.Concerns id := by
  have hu := List.find?_some h
  exact of_decide_eq_true hu

/-! ## What follows from it -/

namespace Turn

/-- The turn is a submission that is refused. -/
def refuses (t : Turn) : Bool :=
  match t.call, t.answer with
  | .submit _ _, .submitted (.ok (.error _)) => true
  | _, _ => false

/-- A turn tells all that it does to the books, or it is refused and does nothing. -/
inductive Tells (t : Turn) : Prop
  | all : Engine.Told t.updates t.before t.after → Tells t
  | refused : t.refuses = true → (∀ u ∈ t.updates, u.status = .rejected) →
      (∀ i x, t.after.Rests i x ↔ t.before.Rests i x) → Tells t

end Turn

theorem Engine.submit_tells {e : Engine} {world : Surroundings} {intent : OrderIntent}
    {res : Except Rejection OrderResult} (hs : e.Sound)
    (ha : (e.submit world intent).answer = .ok res) : (e.perform (.submit world intent)).Tells := by
  cases res with
  | ok r => exact .all (submit_told hs ha)
  | error why =>
      have hrefused := submit_of_rejected hs ha
      refine .refused ?_ (fun u hu => ?_) fun i x => hrefused.unmoved.rests_iff
      · show Turn.refuses ⟨_, _, .submitted (e.submit world intent).answer, _, _⟩ = true
        rw [ha]
        rfl
      obtain ⟨ev, hev, hu⟩ := List.mem_filterMap.mp hu
      obtain ⟨v, rfl, hv⟩ := hrefused.events ev hev
      cases hu
      exact hv.status_eq

/-- Every call that comes to its end `Tells`. -/
theorem Engine.perform_tells {e : Engine} (hs : e.Sound) (hl : e.Lively) (call : Call)
    (hok : (e.perform call).answer.fault? = none) : (e.perform call).Tells := by
  refine perform_of_answered (P := Turn.Tells) ?_ ?_ ?_ ?_ hok
  · intro config
    have hevents : (e.perform (.addInstrument config)).events = [] := addInstrument_events e config
    refine .all ?_
    unfold Turn.updates
    rw [hevents]
    exact .silent (addInstrument_rests e config)
  · exact fun _ _ _ ha => submit_tells hs ha
  · exact fun _ _ _ ha => .all (cancel_told hs hl ha)
  · exact fun _ _ _ _ ha => .all (modify_told hs hl ha)

/-- The books bear out `lastUpdate?` of an identity; without one it does not rest. -/
def Borne (past : List Turn) (e : Engine) (id : OrderId) : Prop :=
  match lastUpdate? past id with
  | none => ∀ i x, e.Rests i x → x.id ≠ id
  | some u => ∃ o, u.Shows o ∧ e.Bears o

/-- What is known of an identity stays so while nothing happens to it. -/
theorem Borne.still {past : List Turn} {t : Turn} {id : OrderId} (h : Borne past t.before id)
    (hnone : t.updates.reverse.find? (fun u => u.Concerns id) = none)
    (hrests : ∀ i x, x.id = id → (t.after.Rests i x ↔ t.before.Rests i x)) :
    Borne (t :: past) t.after id := by
  unfold Borne at h ⊢
  rw [lastUpdate?_cons, hnone, Option.none_or]
  cases hbefore : lastUpdate? past id with
  | none =>
      rw [hbefore] at h
      exact fun i x hx hid => h i x ((hrests i x hid).mp hx) hid
  | some u =>
      rw [hbefore] at h
      obtain ⟨o, hshows, hbears⟩ := h
      have hid : o.id = id := hshows.id_eq.symm.trans (concerns_of_find? hbefore).1
      refine ⟨o, hshows, fun hterminal i x hx hxid => ?_, fun hlive => ?_⟩
      · exact hbears.gone hterminal i x ((hrests i x (hxid.trans hid)).mp hx) hxid
      · obtain ⟨i, ho⟩ := hbears.rests hlive
        exact ⟨i, (hrests i o hid).mpr ho⟩

/-- A turn that has told of an identity is `Borne` out; a turn that has not has changed nothing. -/
theorem Borne.turn {past : List Turn} {t : Turn} {id : OrderId} (h : Borne past t.before id)
    (ht : t.Tells) : Borne (t :: past) t.after id := by
  cases hlast : t.updates.reverse.find? fun u => u.Concerns id with
  | some u =>
      have hmem := List.mem_reverse.mp (List.mem_of_find?_eq_some hlast)
      cases ht with
      | refused _ hrejected _ => exact absurd (hrejected u hmem) (concerns_of_find? hlast).2
      | all htold =>
          unfold Borne
          rw [lastUpdate?_cons, hlast]
          exact htold.shown u hmem
  | none =>
      refine h.still hlast fun i x hid => ?_
      cases ht with
      | refused _ _ hrests => exact hrests i x
      | all htold =>
          refine htold.untold i x fun u hu hux => ?_
          have hnot := List.find?_eq_none.mp hlast u (List.mem_reverse.mpr hu)
          exact hnot (decide_eq_true ⟨hux.trans hid, htold.unrejected u hu⟩)

theorem History.borne {past : List Turn} {e : Engine} (h : Run past e) (hok : Faultless past)
    (id : OrderId) : Borne past e id := by
  refine History.invariant (P := fun past e => Borne past e id) ?_ ?_ h hok
  · intro i x hx
    obtain ⟨slot, hslot, -⟩ := hx
    cases hslot
  · intro past e call hborne hs hl hanswered
    refine Borne.turn ?_ (Engine.perform_tells hs hl call hanswered)
    rw [before_perform e call]
    exact hborne

/-- The `updateLog` tells of an identity whether it rests, and how. -/
structure Logged (past : List Turn) (e : Engine) (id : OrderId) : Prop where
  rests_iff : (∃ i o, e.Rests i o ∧ o.id = id) ↔
    ∃ u, lastUpdate? past id = some u ∧ u.status.isTerminal = false
  shown : ∀ i o, e.Rests i o → o.id = id → ∃ u, lastUpdate? past id = some u ∧ u.Shows o

theorem Borne.logged {past : List Turn} {e : Engine} {id : OrderId} (h : Borne past e id)
    (hs : e.Sound) : Logged past e id := by
  unfold Borne at h
  cases hlast : lastUpdate? past id with
  | none =>
      rw [hlast] at h
      refine ⟨⟨?_, ?_⟩, fun i o ho hid => absurd hid (h i o ho)⟩
      · rintro ⟨i, o, ho, hid⟩
        exact absurd hid (h i o ho)
      · rintro ⟨u, hu, -⟩
        rw [hlast] at hu
        cases hu
  | some u =>
      rw [hlast] at h
      obtain ⟨x, hshows, hbears⟩ := h
      have hid : x.id = id := hshows.id_eq.symm.trans (concerns_of_find? hlast).1
      have hlive {i : Nat} {o : Order} (ho : e.Rests i o) (hoid : o.id = id) :
          x.status.isTerminal = false :=
        Bool.eq_false_iff.mpr fun hterminal => hbears.gone hterminal i o ho (hoid.trans hid.symm)
      refine ⟨⟨?_, ?_⟩, fun i o ho hoid => ⟨u, hlast, ?_⟩⟩
      · rintro ⟨i, o, ho, hoid⟩
        exact ⟨u, hlast, hshows.status_eq ▸ hlive ho hoid⟩
      · rintro ⟨v, hv, hterminal⟩
        rw [hlast] at hv
        cases hv
        obtain ⟨i, hx⟩ := hbears.rests (hshows.status_eq ▸ hterminal)
        exact ⟨i, x, hx, hid⟩
      · -- No identity rests twice, so this is the order that the update shows.
        obtain ⟨j, hx⟩ := hbears.rests (hlive ho hoid)
        rw [hs.eq_of_id ho hx (hoid.trans hid.symm)]
        exact hshows

/-- The log determines the books. At the end of every call of a `Faultless` run an identity rests if
the latest update of it says that more may come, and the order that rests is as that update says. -/
theorem log_determines_books {past : List Turn} {e : Engine} (h : Run past e)
    (hok : Faultless past) :
    ∀ t earlier, t :: earlier <:+ past → ∀ id, Logged (t :: earlier) t.after id := by
  intro t earlier ht id
  obtain ⟨before, call, hrun, rfl⟩ := h.of_suffix ht
  have hrun' := hrun.turn call
  have hok' : Faultless (before.perform call :: earlier) := fun x hx => hok x (ht.subset hx)
  exact (hrun'.borne hok' id).logged (hrun'.orderly hok').1

/-- Three are offered and then one more; two are bought, an offer of nothing is refused although
it comes under an identity that is live, and the second seller withdraws. -/
def session : List Call :=
  [.addInstrument (.plain "X"),
    .submit (.handing 1) (.limit "X" .sell 1 (.scaled 3 0)),
    .submit (.handing 2) (.limit "X" .sell 1 1),
    .submit (.handing 3) (.limit "X" .buy 1 (.scaled 2 0)),
    .submit (.handing 1) (.limit "X" .sell 1 0),
    .cancel (.handing 0) ⟨.ofNat 2⟩]

theorem log_determines_books_session :
    (∀ t earlier, t :: earlier <:+ ((Engine.empty .priceTime).follow [] session).1 →
        ∀ id, Logged (t :: earlier) t.after id) ∧
      ([⟨⟨1, by decide⟩⟩, ⟨⟨2, by decide⟩⟩, ⟨⟨3, by decide⟩⟩] : List OrderId).map (fun id =>
          (lastUpdate? ((Engine.empty .priceTime).follow [] session).1 id).map fun u =>
            (u.status, u.remaining)) =
        [some (.partiallyFilled, 1), some (.cancelled, 1), some (.filled, 0)] :=
  ⟨log_determines_books (History.start.follow session) (by decide +kernel), by decide +kernel⟩

end Bourse
