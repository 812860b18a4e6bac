import Bourse.Proofs.Engine.Tale
import Bourse.Proofs.Run.Stream

/-!
# The order of events

The two sinks of an engine are delivered to separately, and each records a stream of its
own. The numbers put the two back together (`merge_filter`): merged by number they are all
that has been `delivered`, call after call, and the numbers are 1, 2, 3 and so on. Within
a call the order is that of its `Tale`.
-/

namespace Bourse

/-- A list in strict order is the merge of the part that has a property and the part that has it
not. -/
theorem merge_filter {α : Type} {le : α → α → Bool} (p : α → Bool) {l : List α}
    (h : l.Pairwise fun a b => le a b = true ∧ le b a = false) :
    (l.filter p).merge (l.filter fun a => !p a) le = l := by
  induction l with
  | nil => simp
  | cons a l ih =>
      obtain ⟨hfirst, hl⟩ := List.pairwise_cons.mp h
      have hmerge := ih hl
      cases hp : p a with
      | true =>
          simp only [List.filter_cons, hp, if_true, Bool.not_true, Bool.false_eq_true, if_false]
          cases hys : l.filter (fun a => !p a) with
          | nil =>
              rw [hys, List.merge_right] at hmerge
              rw [List.merge_right, hmerge]
          | cons b ys =>
              have hb : b ∈ l.filter (fun a => !p a) := by simp [hys]
              rw [List.cons_merge_cons, if_pos (hfirst b (List.mem_filter.mp hb).1).1, ← hys,
                hmerge]
      | false =>
          simp only [List.filter_cons, hp, Bool.false_eq_true, if_false, Bool.not_false, if_true]
          cases hxs : l.filter p with
          | nil =>
              rw [hxs, List.nil_merge] at hmerge
              rw [List.nil_merge, hmerge]
          | cons b xs =>
              have hb : b ∈ l.filter p := by simp [hxs]
              rw [List.cons_merge_cons, if_neg, ← hxs, hmerge]
              simp only [Bool.not_eq_true]
              exact (hfirst b (List.mem_filter.mp hb).1).2

/-- What the sinks of a run have `recorded`, each in the order of its numbers. Merged by their
numbers the two streams are all that has been `delivered`, and no number is left out. -/
structure Sequenced (past : List Turn) : Prop where
  trades : (recorded past).trades.kept.Pairwise fun a b => a.sequence < b.sequence
  updates : (recorded past).updates.kept.Pairwise fun a b => a.sequence < b.sequence
  merged : (recorded past).trades.kept.merge (recorded past).updates.kept
    (fun a b => a.sequence ≤ b.sequence) = delivered past
  numbers_eq : (delivered past).map Event.sequence = List.range' 1 (delivered past).length

theorem History.sequenced {past : List Turn} {e : Engine} (h : Run past e) (hok : Faultless past) :
    Sequenced past := by
  have hincreasing := h.increasing.1
  refine ⟨?_, ?_, ?_, (h.numbers_eq hok).1⟩
  · rw [recorded_eq]
    exact hincreasing.filter _
  · rw [recorded_eq]
    exact hincreasing.filter _
  · have hkinds : (fun e : Event => decide (e.kind = .update)) =
        fun e => !decide (e.kind = .trade) := by
      funext e
      cases e <;> rfl
    rw [recorded_eq]
    dsimp only [Sink.kept]
    rw [hkinds]
    refine merge_filter _ (hincreasing.imp fun hlt => ?_)
    simp
    omega

/-- What a turn has told, by what was asked and what was answered. -/
def Turn.Recounts (t : Turn) : Prop :=
  match t.call, t.answer with
  | .submit world intent, .submitted (.ok (.ok r)) =>
    r.order.id = (t.before.entering world intent).id ∧ Tale r.order r.trades t.events
  | .submit world intent, .submitted (.ok (.error why)) =>
    t.before.Refusal world intent why t.events
  | .cancel _ id, .cancelled (.ok (.cancelled o)) =>
    o.id = id ∧ o.status = .cancelled ∧ ∃ u : OrderUpdate, t.events = [.update u] ∧ u.Shows o
  | .modify _ id request, .modified (.ok (.modified r)) =>
    ∃ o, t.before.order? id = some o ∧ o.Amended request r t.events
  | _, _ => t.events = []

namespace Engine

variable {e : Engine} {world : Surroundings} {id : OrderId}

theorem submit_recounts (hs : e.Sound) (hl : e.Listed) {intent : OrderIntent}
    {res : Except Rejection OrderResult} (ha : (e.submit world intent).answer = .ok res) :
    (e.perform (.submit world intent)).Recounts := by
  show Turn.Recounts ⟨e, _, .submitted (e.submit world intent).answer, _, _⟩
  rw [ha]
  cases res with
  | error why => exact (submit_refusal hl ha).2
  | ok r =>
      obtain ⟨i, slot, d, hadm, hexec, -, hevents⟩ := submit_of_ok hs ha
      have hent := hadm.enters hs.toInOrder
      have hexecuted := Desk.executed_of_ok hent.sound hexec
      refine ⟨(hexecuted.same hent.sound).id_eq, ?_⟩
      dsimp only
      rw [hevents]
      exact hexecuted.tale hent.sound hent.free rfl

theorem cancel_recounts (hs : e.Sound) {r : CancelResult}
    (ha : (e.cancel world id).answer = .ok r) : (e.perform (.cancel world id)).Recounts := by
  show Turn.Recounts ⟨e, _, .cancelled (e.cancel world id).answer, _, _⟩
  rw [ha]
  rcases cancel_of_ok hs ha with ⟨-, hevents, rfl⟩ | ⟨i, slot, d, -, hcancel, -, hevents⟩
  · exact hevents
  · have htale := hcancel.tale rfl
    cases r with
    | notFound => exact hevents.trans htale
    | cancelled o =>
        obtain ⟨hid, hstatus, u, hemitted, hshows⟩ := htale
        exact ⟨hid, hstatus, u, hevents.trans hemitted, hshows⟩

theorem modify_recounts (hs : e.Sound) {request : ModifyRequest} {r : ModifyResult}
    (ha : (e.modify world id request).answer = .ok r) :
    (e.perform (.modify world id request)).Recounts := by
  show Turn.Recounts ⟨e, _, .modified (e.modify world id request).answer, _, _⟩
  rw [ha]
  rcases modify_of_ok hs ha with ⟨-, hevents, hnot⟩ | ⟨i, slot, d, hrev, hmod, -, hevents⟩
  · cases r with
    | modified res => exact absurd rfl (hnot res)
    | notFound => exact hevents
    | rejected reason => exact hevents
  · have htale := hmod.tale rfl
    have hslot := (route_of_locate? hrev.found).1
    cases r with
    | notFound => exact hevents.trans htale
    | rejected reason => exact hevents.trans htale
    | modified res =>
        obtain ⟨o, ho, hid, hamended⟩ := htale
        refine ⟨o, (order?_iff hs).mpr ⟨⟨i, slot, hslot, ho⟩, hid⟩, ?_⟩
        dsimp only
        rw [hevents]
        exact hamended

theorem perform_recounts (hs : e.Sound) (hl : e.Listed) (call : Call)
    (hok : (e.perform call).answer.fault? = none) : (e.perform call).Recounts := by
  refine perform_of_answered (P := Turn.Recounts) ?_ ?_ ?_ ?_ hok
  · exact fun config => addInstrument_events e config
  · exact fun _ _ _ ha => submit_recounts hs hl ha
  · exact fun _ _ _ ha => cancel_recounts hs ha
  · exact fun _ _ _ _ ha => modify_recounts hs ha

end Engine

/-- The order of events. In a `Faultless` run the two streams of events, merged by their numbers,
are what the calls have told, one call after the other, and they are numbered from 1 without a gap.
Each call tells of its trades in their order, of each maker right after its trade, and last of the
order itself. -/
theorem events_in_order {past : List Turn} {e : Engine} (h : Run past e) (hok : Faultless past) :
    Sequenced past ∧ ∀ t ∈ past, t.Recounts ∧
      t.events.map Event.sequence =
        List.range' (t.before.counters.events + 1) t.events.length := by
  refine ⟨h.sequenced hok, fun t ht => ⟨?_, (h.numbered ht).numbers_eq⟩⟩
  obtain ⟨earlier, hrun, hsuffix⟩ := h.upTo ht
  obtain ⟨before, call, hbefore, rfl⟩ := hrun.of_suffix (List.suffix_refl _)
  have hok' : Faultless earlier := fun x hx => hok x (hsuffix.subset (List.mem_cons_of_mem _ hx))
  exact Engine.perform_recounts (hbefore.orderly hok').1 hbefore.listed call
    (hok _ (hsuffix.subset List.mem_cons_self))

/-- Two are offered at 3 and one is bid for at 1, under an identity that is then refused to
another. The bidder goes up to 3 and trades, the seller lowers its quantity without effect, and
what is left is cancelled. -/
def haggling : List Call :=
  [.addInstrument (.plain "X"),
    .submit (.handing 1) (.limit "X" .sell (.scaled 3 0) (.scaled 2 0)),
    .submit (.handing 2) (.limit "X" .buy 1 1),
    .submit (.handing 2) (.limit "X" .buy 1 1),
    .submit (.handing 3) (.market "Y" .buy 1),
    .modify (.handing 0) ⟨.ofNat 2⟩ ⟨some (.scaled 3 0), 1⟩,
    .modify (.handing 0) ⟨.ofNat 1⟩ ⟨none, 1⟩,
    .cancel (.handing 0) ⟨.ofNat 1⟩]

theorem events_in_order_haggling :
    (Sequenced ((Engine.empty .priceTime).follow [] haggling).1 ∧
      ∀ t ∈ ((Engine.empty .priceTime).follow [] haggling).1, t.Recounts) ∧
      (delivered ((Engine.empty .priceTime).follow [] haggling).1).map
          (fun ev => (ev.kind, ev.sequence)) =
        [(.update, 1), (.update, 2), (.update, 3), (.trade, 4), (.update, 5), (.update, 6),
          (.update, 7)] := by
  obtain ⟨hsequenced, hturns⟩ :=
    events_in_order (History.start.follow haggling) (by decide +kernel)
  exact ⟨⟨hsequenced, fun t ht => (hturns t ht).1⟩, by decide +kernel⟩

end Bourse
