import Bourse.Proofs.Run.Log
import Bourse.Proofs.Run.Uncrossed

/-!
# Whose updates an identity carries

Every update but a rejection is about the order that has its identity, and says how that
order stands once the call is over (`Turn.Streams`). A rejection is about an intent. It is
told whenever the intent is refused for its symbol or its terms, and nobody asks then
whether its identity is live; so the updates of a resting order can be mixed with
rejections that are not its own. Only a `Refusal` for the identity itself is silent.
-/

namespace Bourse

namespace Engine

/-- What is sent when an intent is refused: nothing if it was valid, for then its identity was
live, and otherwise the rejection. -/
inductive Refusal (e : Engine) (world : Surroundings) (intent : OrderIntent) :
    Rejection → List Event → Prop
  | duplicate : e.Valid intent → e.routes.get? (e.entering world intent).id ≠ none →
      Refusal e world intent ⟨(e.entering world intent).id,
        .duplicateOrderId (e.entering world intent).id⟩ []
  | invalid {reason : RejectReason} {u : OrderUpdate} : ¬ e.Valid intent →
      u.Rejects (e.entering world intent).id reason →
      Refusal e world intent ⟨(e.entering world intent).id, reason⟩ [.update u]

variable {e : Engine} {world : Surroundings} {intent : OrderIntent} {why : Rejection}

/-- A refused intent leaves the engine `Unmoved`, and sends a rejection if it was not `Valid`. -/
theorem submit_refusal (hl : e.Listed)
    (ha : (e.submit world intent).answer = .ok (.error why)) :
    Unmoved e (e.submit world intent).engine ∧
      e.Refusal world intent why (e.submit world intent).events := by
  by_cases hvalid : e.Valid intent
  · have hlive : e.routes.get? (e.entering world intent).id ≠ none := by
      obtain ⟨i, slot, hfound, hchecked⟩ := hvalid
      exact fun hfree => not_admits_of_rejected ha i slot ⟨hfound, hchecked, hfree⟩
    obtain ⟨hengine, hevents, hanswer⟩ := submit_duplicate world hvalid hlive
    rw [ha] at hanswer
    cases hanswer
    rw [hengine, hevents]
    exact ⟨unmoved_afterDuplicate e, .duplicate hvalid hlive⟩
  · obtain ⟨hengine, reason, u, -, hu, ⟨hevents, hanswer⟩ | ⟨-, _, _, -, -, hanswer⟩⟩ :=
      submit_invalid world hl.slot_valid hvalid
    · rw [ha] at hanswer
      cases hanswer
      rw [hengine, hevents]
      exact ⟨unmoved_afterRejection e, .invalid hvalid hu.toRejects⟩
    · rw [ha] at hanswer
      cases hanswer

end Engine

/-- Every update of a turn but a rejection shows an order as the books have it afterwards, and
only a submission that is refused sends a rejection. -/
structure Turn.Streams (t : Turn) : Prop where
  own : ∀ u ∈ t.updates, u.status ≠ .rejected → ∃ o, u.Shows o ∧ t.after.Bears o
  rejected : ∀ u ∈ t.updates, u.status = .rejected → t.refuses = true

theorem Turn.Tells.streams {t : Turn} (h : t.Tells) : t.Streams := by
  cases h with
  | all htold =>
      exact ⟨fun u hu _ => htold.shown u hu, fun u hu hr => absurd hr (htold.unrejected u hu)⟩
  | refused hrefuses hrejected _ =>
      exact ⟨fun u hu hne => absurd (hrejected u hu) hne, fun _ _ _ => hrefuses⟩

/-- Whose updates a run delivers. Whatever has happened before, a submission that is refused for its
identity sends nothing and one that is refused for anything else sends a rejection, be its identity
live or not. If no fault has come between, a turn `Streams`: all other updates are those of the
orders whose identities they carry, and a terminal one says that its order rests no more. -/
theorem update_streams {past : List Turn} {e : Engine} (h : Run past e) :
    ∀ t earlier, t :: earlier <:+ past →
      (∀ world intent why, t.call = .submit world intent →
        t.answer = .submitted (.ok (.error why)) →
        Engine.Unmoved t.before t.after ∧ t.before.Refusal world intent why t.events) ∧
      (Faultless past ∨ past.length < 10000000000 → t.Streams) := by
  intro t earlier ht
  obtain ⟨before, call, hrun, rfl⟩ := h.of_suffix ht
  refine ⟨fun world intent why hcall hanswer => ?_, fun hshort => ?_⟩
  · rw [call_perform] at hcall
    subst hcall
    change Answer.submitted (before.submit world intent).answer = _ at hanswer
    injection hanswer with hanswer
    exact Engine.submit_refusal hrun.listed hanswer
  · have hok : Faultless past := hshort.elim id fun hlen => (h.steady hlen).1
    obtain ⟨hs, hl, -⟩ := hrun.orderly fun x hx => hok x (ht.subset (List.mem_cons_of_mem _ hx))
    exact (Engine.perform_tells hs hl call (hok _ (ht.subset List.mem_cons_self))).streams

/-- One is offered at 1. -/
def offering : List Call :=
  [.addInstrument (.plain "X"), .submit (.handing 1) (.limit "X" .sell 1 1)]

/-- Under the same identity somebody offers nothing. -/
def offeringNothing : Call := .submit (.handing 1) (.limit "X" .sell 1 0)

theorem update_streams_offering :
    (∀ t earlier, t :: earlier <:+
        ((Engine.empty .priceTime).follow [] (offering ++ [offeringNothing])).1 → t.Streams) ∧
      (((Engine.empty .priceTime).follow [] (offering ++ [offeringNothing])).1.map fun t =>
          t.updates.map fun u => (u.orderId, u.status)) =
        [[(⟨⟨1, by decide⟩⟩, .rejected)], [(⟨⟨1, by decide⟩⟩, .new)], []] :=
  ⟨fun t earlier ht =>
    (update_streams (History.start.follow (offering ++ [offeringNothing])) t earlier ht).2
      (Or.inr (by decide +kernel)), by decide +kernel⟩

/-- A resting order does not have its updates to itself. -/
theorem rejection_of_live_identity :
    ¬ ∀ past e, Run past e → ∀ call i o, e.Rests i o → (e.perform call).refuses = true →
      ∀ u ∈ (e.perform call).updates, u.orderId ≠ o.id := by
  intro h
  have hrun : Run _ _ := History.start.follow offering
  have hs := (hrun.orderly (by decide +kernel)).1
  obtain ⟨o, ho⟩ := Option.isSome_iff_exists.mp (show
    (((Engine.empty .priceTime).follow [] offering).2.order? ⟨⟨1, by decide⟩⟩).isSome = true by
      decide +kernel)
  obtain ⟨⟨i, hrests⟩, hid⟩ := (Engine.order?_iff hs).mp ho
  have hnone := h _ _ hrun offeringNothing i o hrests (by decide +kernel)
  rw [hid] at hnone
  revert hnone
  decide +kernel

end Bourse
