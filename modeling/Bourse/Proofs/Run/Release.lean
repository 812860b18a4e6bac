import Mathlib.Algebra.Group.Nat.Defs
import Bourse.Proofs.Run.History
import Bourse.Proofs.Run.Routing
import Bourse.Proofs.Engine.Released

/-!
# What aborted calls release

Under a rule by script any call may be stopped, before the first trade, after the last, or
because nothing was let trade and the book is crossed. Such a call is `Turn.Contained`: it
keeps to its own book and sends nothing, and the numbers of what it would have sent are
lost. What it leaves behind is in order: whatever rests has a route, and the identity it
worked for is either of an order that rests or can be sent in again
(`SoundAfter.released`).

That a call keeps to itself asks nothing of the books. The rest needs sums that are large
enough for each trade to be made whole, and a call may cost these two units
(`creditAfter`). For that to matter it takes two to the ninety-fifth calls, more than any
engine will see.
-/

namespace Bourse

open Decimal (halfUnit greatestAtoms)

namespace Engine

/-- The slot whose book a call is about. -/
def deskOf? (e : Engine) : Call → Option Nat
  | .addInstrument _ => none
  | .submit _ intent => (e.lookup? intent.symbol).map Prod.fst
  | .cancel _ id | .modify _ id _ => (e.locate? id).map Prod.fst

/-- The call sends in a valid intent under the identity. -/
def Enrols (e : Engine) (id : OrderId) : Call → Prop
  | .submit world intent => e.Valid intent ∧ (e.entering world intent).id = id
  | .addInstrument _ | .cancel _ _ | .modify _ _ _ => False

/-- The call works for the identity: it sends it in, in a valid intent, or is to modify it. -/
def WorksFor (e : Engine) (id : OrderId) : Call → Prop
  | .submit world intent => e.Valid intent ∧ (e.entering world intent).id = id
  | .modify _ id' _ => id' = id
  | .addInstrument _ | .cancel _ _ => False

/-! ## Any rule -/

theorem unshaken_slot (j : Nat) : Unshaken (· ≠ j) fun e => e.slots[j]? := by
  refine ⟨fun _ _ _ => rfl, fun _ _ => rfl, fun e i d (hi : i ≠ j) => ?_⟩
  change (e.slots.modify i fun slot => { slot with book := d.book })[j]? = e.slots[j]?
  simp [hi]

/-- A view that is `Unshaken` by work at the desk of a call is the same after the call. -/
theorem Unshaken.perform {β : Type} {desks : Nat → Prop} {view : Engine → β}
    (h : Unshaken desks view) {e : Engine} {call : Call} (horder : call.lists = false)
    (hdesk : ∀ i, e.deskOf? call = some i → desks i) : view (e.perform call).after = view e := by
  cases call with
  | addInstrument config => cases horder
  | submit world intent =>
      exact h.submit e world intent fun i slot hl => hdesk i (congrArg (Option.map Prod.fst) hl)
  | cancel world id =>
      exact h.cancel e world id fun i slot hl => hdesk i (congrArg (Option.map Prod.fst) hl)
  | modify world id request =>
      exact h.modify e world id request fun i slot hl =>
        hdesk i (congrArg (Option.map Prod.fst) hl)

/-- A call about orders keeps to its own book. -/
theorem perform_elsewhere {e : Engine} {call : Call} (horder : call.lists = false) {j : Nat}
    (hj : e.deskOf? call ≠ some j) : (e.perform call).after.slots[j]? = e.slots[j]? :=
  (unshaken_slot j).perform horder fun i hi => by
    rintro rfl
    exact hj hi

/-- A call that is stopped keeps to its own book. -/
theorem perform_confined {e : Engine} {call : Call} (hf : (e.perform call).answer.fault? ≠ none)
    {j : Nat} (hj : e.deskOf? call ≠ some j) : (e.perform call).after.slots[j]? = e.slots[j]? := by
  cases call with
  | addInstrument config => exact (stopped hf).elim
  | submit _ _ | cancel _ _ | modify _ _ _ => exact perform_elsewhere rfl hj

/-- No call changes the rule. -/
theorem perform_rule (e : Engine) (call : Call) : (e.perform call).after.rule = e.rule := by
  cases call with
  | addInstrument config => exact (addInstrument_keeps e config).1
  | submit _ _ | cancel _ _ | modify _ _ _ => exact unshaken_rule.perform rfl fun _ _ => trivial

/-- An identity without a route gets one only by a call that `Enrols` it. -/
theorem perform_unrouted {e : Engine} (hfills : e.rule.Fills) (hs : e.InOrder) (hlive : e.Live)
    {id : OrderId} {call : Call} (hnot : ¬ e.Enrols id call) (hfree : e.routes.get? id = none) :
    (e.perform call).after.routes.get? id = none := by
  cases call with
  | addInstrument config =>
      show (e.addInstrument config).engine.routes.get? id = none
      rw [(addInstrument_keeps e config).2.1]
      exact hfree
  | submit world intent =>
      exact submit_unrouted hfills hs (fun hvalid hid => hnot ⟨hvalid, hid⟩) hfree
  | cancel world id' => exact cancel_unrouted hs hfree
  | modify world id' request => exact modify_unrouted hfills hs hlive hfree

/-! ## Rules that make whole trades -/

/-- What the books may owe after a number of calls about orders. -/
def creditAfter (calls : Nat) : Int := calls * (4 * halfUnit)

theorem creditAfter_succ (n : Nat) : creditAfter (n + 1) = creditAfter n + 4 * halfUnit := by
  unfold creditAfter
  rw [Int.natCast_succ, Int.add_mul, Int.one_mul]

theorem creditAfter_le {n : Nat} (h : n < 2 ^ 95) : creditAfter n ≤ greatestAtoms := by
  have hunit : halfUnit = 5 * 10 ^ 27 := rfl
  have hgreatest : greatestAtoms = (2 ^ 96 - 1) * 10 ^ 28 := rfl
  unfold creditAfter
  rw [hunit, hgreatest]
  omega

/-- `InOrder`, and `Solvent` for as many calls as there have been. -/
structure SoundAfter (calls : Nat) (e : Engine) : Prop where
  inOrder : e.InOrder
  solvent : e.Solvent (creditAfter calls)

variable {e : Engine} {calls : Nat}

theorem soundAfter_empty (rule : MatchingRule) : (Engine.empty rule).SoundAfter 0 where
  inOrder := inOrder_empty rule
  solvent := by
    rw [show creditAfter 0 = 0 from Int.zero_mul _]
    exact solvent_empty rule

theorem SoundAfter.perform (hfills : e.rule.Fills) (hwhole : e.rule.Whole)
    (h : e.SoundAfter calls) (hfew : calls < 2 ^ 95) (call : Call) :
    (e.perform call).after.SoundAfter (calls + if call.lists then 0 else 1) := by
  obtain ⟨hs, hb⟩ := h
  have hcap := creditAfter_le hfew
  have hnext : creditAfter calls ≤ creditAfter (calls + 1) := by
    rw [creditAfter_succ]
    omega
  cases call with
  | addInstrument config => exact ⟨addInstrument_inOrder hs config, hb.addInstrument config⟩
  | submit world intent =>
      refine ⟨submit_inOrder hfills hs world intent, ?_⟩
      show Engine.Solvent (creditAfter (calls + 1)) _
      rw [creditAfter_succ]
      exact hb.submit hwhole hs hcap world intent
  | cancel world id => exact ⟨cancel_inOrder hs world id, (hb.cancel hs world id).mono hnext⟩
  | modify world id request =>
      refine ⟨modify_inOrder hfills hs hb.live world id request, ?_⟩
      show Engine.Solvent (creditAfter (calls + 1)) _
      rw [creditAfter_succ]
      exact hb.modify hwhole hs hcap world id request

/-- A call that is stopped lets go of the identity it `WorksFor`, unless the order rests. -/
theorem SoundAfter.released (hfills : e.rule.Fills) (h : e.SoundAfter calls) {id : OrderId}
    {call : Call} (hfor : e.WorksFor id call) (hf : (e.perform call).answer.fault? ≠ none) :
    ∃ i, e.deskOf? call = some i ∧ (e.perform call).after.Released i id := by
  cases call with
  | addInstrument config => exact hfor.elim
  | submit world intent =>
      obtain ⟨hvalid, rfl⟩ := hfor
      obtain ⟨f, ha⟩ := stopped hf
      obtain ⟨i, slot, hfound, hreleased⟩ := submit_released hfills h.inOrder hvalid ha
      exact ⟨i, congrArg (Option.map Prod.fst) hfound, hreleased⟩
  | cancel world id => exact hfor.elim
  | modify world id' request =>
      obtain rfl : id' = id := hfor
      obtain ⟨f, ha⟩ := stopped hf
      obtain ⟨i, slot, hfound, hreleased⟩ := modify_released hfills h.inOrder h.solvent.live ha
      exact ⟨i, congrArg (Option.map Prod.fst) hfound, hreleased⟩

end Engine

namespace History

variable {rule : MatchingRule} {past : List Turn} {e : Engine}

theorem rule_eq (h : History rule past e) : e.rule = rule := by
  induction h with
  | start => rfl
  | turn call _ ih => exact (Engine.perform_rule _ call).trans ih

theorem soundAfter (hfills : rule.Fills) (hwhole : rule.Whole) (h : History rule past e)
    (hfew : orderCalls past < 2 ^ 95) : e.SoundAfter (orderCalls past) := by
  induction h with
  | start => exact Engine.soundAfter_empty rule
  | @turn past e call h ih =>
      rw [orderCalls_perform] at hfew ⊢
      have hbefore : orderCalls past < 2 ^ 95 := by omega
      exact (ih hbefore).perform (h.rule_eq ▸ hfills) (h.rule_eq ▸ hwhole) hbefore call

/-- An identity that is left without a route stays so until it is sent in again. -/
theorem unrouted (hfills : rule.Fills) (hwhole : rule.Whole) {t : Turn} {earlier later : List Turn}
    {id : OrderId} (h : History rule (later ++ t :: earlier) e)
    (hfew : orderCalls (later ++ t :: earlier) < 2 ^ 95)
    (hfree : t.after.routes.get? id = none) (hnot : ∀ u ∈ later, ¬ u.before.Enrols id u.call) :
    e.routes.get? id = none := by
  induction later generalizing e with
  | nil =>
      cases h
      exact hfree
  | cons u later ih =>
      cases h with
      | @turn _ e call h =>
          rw [List.cons_append, orderCalls_perform] at hfew
          have hbefore : orderCalls (later ++ t :: earlier) < 2 ^ 95 := by omega
          have hlater := ih h hbefore fun u hu => hnot u (List.mem_cons_of_mem _ hu)
          have hcall := hnot _ List.mem_cons_self
          rw [before_perform, call_perform] at hcall
          have hs := h.soundAfter hfills hwhole hbefore
          exact Engine.perform_unrouted (h.rule_eq ▸ hfills) hs.inOrder hs.solvent.live hcall hlater

end History

/-- A turn that sends nothing, of whose numbers none is used by what is delivered, and that changes
no slot but the one it is about. -/
structure Turn.Contained (past : List Turn) (t : Turn) : Prop where
  silent : t.events = []
  lost : ∀ ev ∈ delivered past, ¬ t.Takes ev.sequence
  elsewhere : ∀ j, t.before.deskOf? t.call ≠ some j → t.after.slots[j]? = t.before.slots[j]?

/-- Whatever a rule has stopped is `Contained`. -/
theorem History.contained {rule : MatchingRule} {past : List Turn} {e : Engine}
    (h : History rule past e) {t : Turn} (ht : t ∈ past) (hf : t.answer.fault? ≠ none) :
    t.Contained past := by
  refine ⟨(h.numbered ht).stopped hf, fun ev hev => h.lost ht hf hev, fun j hj => ?_⟩
  obtain ⟨earlier, -, hsuffix⟩ := h.upTo ht
  obtain ⟨before, call, -, rfl⟩ := h.of_suffix hsuffix
  rw [before_perform, call_perform] at hj
  rw [before_perform]
  exact Engine.perform_confined hf hj

/-- Calls that a script has stopped are `Contained`. With fewer calls than two to the ninety-fifth,
all that rests after a call has a route to where it rests. And the identity that a stopped call has
worked for rests in the book of the call or has no route; in the latter case it has none until it is
sent in again, and then it is not refused. -/
theorem aborted_calls_release {name : String} {script : Nat → MatchingRule.Conduct}
    {past : List Turn} {e : Engine} (h : History (.scripted name script) past e) :
    (∀ t ∈ past, t.answer.fault? ≠ none → t.Contained past) ∧
    (orderCalls past < 2 ^ 95 →
      (∀ t ∈ past, ∀ i o, t.after.Rests i o →
        ∃ r, t.after.routes.get? o.id = some r ∧ r.slot = i) ∧
      ∀ later t earlier id, past = later ++ t :: earlier → t.answer.fault? ≠ none →
        t.before.WorksFor id t.call →
        (∃ i, t.before.deskOf? t.call = some i ∧ t.after.Released i id) ∧
        (t.after.routes.get? id = none → (∀ u ∈ later, ¬ u.before.Enrols id u.call) →
          ∀ world intent why, e.Valid intent → (e.entering world intent).id = id →
            (e.submit world intent).answer ≠ .ok (.error why))) := by
  have hfills := MatchingRule.fills_scripted name script
  have hwhole := MatchingRule.whole_scripted name script
  refine ⟨fun t ht hf => h.contained ht hf,
    fun hfew => ⟨fun t ht i o ho => ?_, fun later t earlier id hpast hf hfor => ⟨?_, ?_⟩⟩⟩
  · obtain ⟨earlier, hearlier, hsuffix⟩ := h.upTo ht
    have hfewer := Nat.lt_of_le_of_lt (orderCalls_suffix hsuffix) hfew
    exact (hearlier.soundAfter hfills hwhole hfewer).inOrder.routed ho
  · have hsuffix : t :: earlier <:+ past := ⟨later, hpast.symm⟩
    obtain ⟨before, call, hearlier, rfl⟩ := h.of_suffix hsuffix
    have hfewer := orderCalls_suffix ((List.suffix_cons _ _).trans hsuffix)
    rw [before_perform, call_perform] at hfor ⊢
    exact (hearlier.soundAfter hfills hwhole (Nat.lt_of_le_of_lt hfewer hfew)).released
      (hearlier.rule_eq ▸ hfills) hfor hf
  · subst hpast
    rintro hfree hnot world intent why ⟨i, slot, hfound, hchecked⟩ rfl hrefused
    have hunrouted := h.unrouted hfills hwhole hfew hfree hnot
    exact Engine.not_admits_of_rejected hrefused i slot ⟨hfound, hchecked, hunrouted⟩

/-- The second matching lets nothing trade. The fourth reports a violation when it is done, and the
fifth before it has begun. -/
def tampering : Nat → MatchingRule.Conduct
  | 2 => .idle
  | 4 => .failAfter fun o => .unknownOrder o.id
  | 5 => .failBefore fun o => .unknownOrder o.id
  | _ => .priceTime

/-- A buyer crosses the offer in "X" and has to withdraw. Another is stopped when he has bought what
is offered in "Y", and the offer in "X" is lost in a modification. Then the identities of these two
are taken again. -/
def tampered : List Call :=
  [.addInstrument (.plain "X"), .addInstrument (.plain "Y"),
    .submit (.handing 1) (.limit "X" .sell 1 1),
    .submit (.handing 2) (.limit "X" .buy 1 1),
    .cancel (.handing 0) ⟨.ofNat 2⟩,
    .submit (.handing 3) (.limit "Y" .sell 1 1),
    .submit (.handing 4) (.limit "Y" .buy 1 1),
    .modify (.handing 0) ⟨.ofNat 1⟩ ⟨none, .scaled 2 0⟩,
    .submit (.handing 4) (.limit "Y" .buy 1 1),
    .submit (.handing 1) (.limit "Y" .sell 1 1)]

theorem aborted_calls_release_tampered :
    let past := ((Engine.empty (.scripted "Tampering" tampering)).follow [] tampered).1
    (∀ t ∈ past, ∀ i o, t.after.Rests i o →
        ∃ r, t.after.routes.get? o.id = some r ∧ r.slot = i) ∧
      (∀ t ∈ past, t.answer.fault? ≠ none → t.Contained past) ∧
      (delivered past).map Event.sequence = [1, 3, 4, 5, 6, 7, 8] ∧
      past.map (fun t => (t.answer.fault?.isSome, t.after.restingIds)) =
        [(false, []), (false, [⟨⟨4, by decide⟩⟩]), (true, []), (true, [⟨⟨1, by decide⟩⟩]),
          (false, [⟨⟨1, by decide⟩⟩, ⟨⟨3, by decide⟩⟩]), (false, [⟨⟨1, by decide⟩⟩]),
          (true, [⟨⟨2, by decide⟩⟩, ⟨⟨1, by decide⟩⟩]), (false, [⟨⟨1, by decide⟩⟩]),
          (false, []), (false, [])] := by
  have h : History (.scripted "Tampering" tampering) _ _ := History.start.follow tampered
  obtain ⟨hstopped, hfew⟩ := aborted_calls_release h
  exact ⟨(hfew (by decide +kernel)).1, hstopped, by decide +kernel, by decide +kernel⟩

end Bourse
