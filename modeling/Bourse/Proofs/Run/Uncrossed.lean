import Bourse.Proofs.Engine.Steady
import Bourse.Proofs.Run.Basic

/-!
# No book is crossed at rest

No order is larger than `maxOrderQuantity`, so what the calls of a run can add to a side
grows with their number, and the slack of the sums with its square (`slackAfter`). For ten
thousand million calls both are far within the range of the decimals (`bounds_le_cap`). Up
to there every call comes to its end, and what it leaves is `Steady`: bids below asks, at
prices of orders that rest.
-/

namespace Bourse

open Decimal

namespace Engine

variable {bound off : Int} {count : Nat} {e : Engine}

/-- `perform` of a call on a `Steady` engine meets no fault, whatever it asks. -/
theorem perform_steady (h : e.Steady .coarse bound off count) (hnonneg : 0 ≤ bound ∧ 0 ≤ off)
    (hcap : bound + maxOrderQuantity.atoms + off + Precision.coarse.drift count ≤
      Precision.coarse.cap) (call : Call) :
    (e.perform call).answer.fault? = none ∧
      (e.perform call).after.Steady .coarse (bound + maxOrderQuantity.atoms)
        (off + Precision.coarse.drift count) (count + 1) := by
  have hmost : 0 ≤ maxOrderQuantity.atoms := by decide
  have hslack : (Precision.coarse.slack : Int) ≤ Precision.coarse.drift count := by
    unfold Precision.drift
    omega
  have hgrid (q : Quantity) : Precision.coarse.grid ∣ q.atoms := Int.one_dvd _
  cases call with
  | addInstrument config =>
      exact ⟨rfl, (addInstrument_steady h config hnonneg).mono (by omega) (by omega)
        (Nat.le_succ _)⟩
  | submit world intent =>
      by_cases hadmits : ∃ i slot, e.Admits world intent i slot
      · obtain ⟨i, slot, ha⟩ := hadmits
        have hle : intent.quantity.atoms ≤ maxOrderQuantity.atoms :=
          (passed_of_checkIntent ha.checked).le
        obtain ⟨⟨r, hr⟩, hsteady⟩ := submit_steady h ha (hgrid _) (by omega)
        refine ⟨?_, hsteady.mono (by omega) (Int.le_refl _) (Nat.le_refl _)⟩
        change (Answer.submitted (e.submit world intent).answer).fault? = none
        rw [hr]
        rfl
      · obtain ⟨⟨why, hwhy⟩, hsteady⟩ :=
          submit_refused_steady h fun i slot ha => hadmits ⟨i, slot, ha⟩
        refine ⟨?_, hsteady.mono (by omega) (by omega) (Nat.le_succ _)⟩
        change (Answer.submitted (e.submit world intent).answer).fault? = none
        rw [hwhy]
        rfl
  | cancel world id =>
      obtain ⟨⟨r, hr⟩, hsteady⟩ := cancel_steady h world id (by omega)
      refine ⟨?_, hsteady.mono (by omega) (by omega) (Nat.le_succ _)⟩
      change (Answer.cancelled (e.cancel world id).answer).fault? = none
      rw [hr]
      rfl
  | modify world id request =>
      by_cases hrevises : ∃ i slot, e.Revises id request i slot
      · obtain ⟨i, slot, hrev⟩ := hrevises
        have hle : request.quantity.atoms ≤ maxOrderQuantity.atoms :=
          (passed_of_checkRequest hrev.checked).2
        obtain ⟨⟨r, hr⟩, hsteady⟩ := modify_steady h world hrev (hgrid _) (by omega)
        refine ⟨?_, hsteady.mono (by omega) (Int.le_refl _) (Nat.le_refl _)⟩
        change (Answer.modified (e.modify world id request).answer).fault? = none
        rw [hr]
        rfl
      · obtain ⟨hengine, -, hanswer⟩ :=
          modify_refused world h.sound.toInOrder fun i slot hr => hrevises ⟨i, slot, hr⟩
        constructor
        · change (Answer.modified (e.modify world id request).answer).fault? = none
          rcases hanswer with hr | ⟨reason, hr⟩ <;> rw [hr] <;> rfl
        · change (e.modify world id request).engine.Steady _ _ _ _
          rw [hengine]
          exact h.mono (by omega) (by omega) (Nat.le_succ _)

end Engine

/-- How many calls a run may have for its sums to be known to fit. -/
def longRun : Nat := 10000000000

/-- How much the slack of the sums has grown by so many calls. -/
def slackAfter (n : Nat) : Int := (Precision.coarse.slack * (n * (n + 3)) : Nat)

theorem slackAfter_succ (n : Nat) :
    slackAfter (n + 1) = slackAfter n + Precision.coarse.drift n := by
  have hsquare : (n + 1) * (n + 1 + 3) = n * (n + 3) + 2 * n + 4 := by
    simp only [Nat.add_mul, Nat.mul_add]
    omega
  unfold slackAfter Precision.drift
  rw [hsquare, Nat.mul_add, Nat.mul_add, Nat.mul_left_comm _ 2 n]
  omega

/-- The bounds that so many calls and one more can have reached are within the range. -/
theorem bounds_le_cap {n : Nat} (hn : n ≤ longRun) :
    ((n + 1 : Nat) : Int) * maxOrderQuantity.atoms + slackAfter (n + 1) ≤
      Precision.coarse.cap := by
  have hn : n + 1 ≤ longRun + 1 := Nat.succ_le_succ hn
  have hsquare : (n + 1) * (n + 1 + 3) ≤ (longRun + 1) * (longRun + 1 + 3) :=
    Nat.mul_le_mul hn (Nat.add_le_add_right hn 3)
  have hslack := Nat.mul_le_mul_left Precision.coarse.slack hsquare
  have hbound := Int.mul_le_mul_of_nonneg_right (Int.ofNat_le.mpr hn)
    (by decide : 0 ≤ maxOrderQuantity.atoms)
  have hcap : ((longRun + 1 : Nat) : Int) * maxOrderQuantity.atoms +
      (Precision.coarse.slack * ((longRun + 1) * (longRun + 1 + 3)) : Nat) ≤
        Precision.coarse.cap := by
    decide
  exact Int.le_trans (Int.add_le_add hbound (Int.ofNat_le.mpr hslack)) hcap

/-- How `Steady` an engine is after so many calls. -/
def Engine.SteadyAfter (n : Nat) (e : Engine) : Prop :=
  e.Steady .coarse (n * maxOrderQuantity.atoms) (slackAfter n) n

theorem Engine.SteadyAfter.next_of_le {n : Nat} {e : Engine} (h : e.SteadyAfter n)
    (hn : n ≤ longRun) (call : Call) :
    (e.perform call).answer.fault? = none ∧ (e.perform call).after.SteadyAfter (n + 1) := by
  have hcap := bounds_le_cap hn
  have hbound : ((n + 1 : Nat) : Int) * maxOrderQuantity.atoms =
      n * maxOrderQuantity.atoms + maxOrderQuantity.atoms := by
    rw [Int.natCast_succ, Int.add_mul, Int.one_mul]
  have hnonneg : 0 ≤ (n : Int) * maxOrderQuantity.atoms ∧ 0 ≤ slackAfter n :=
    ⟨Int.mul_nonneg (Int.natCast_nonneg _) (by decide), Int.natCast_nonneg _⟩
  unfold Engine.SteadyAfter
  rw [hbound, slackAfter_succ] at hcap ⊢
  exact Engine.perform_steady h hnonneg (by omega) call

theorem Engine.SteadyAfter.next {n : Nat} {e : Engine} (h : e.SteadyAfter n) (hn : n < longRun)
    (call : Call) :
    (e.perform call).answer.fault? = none ∧ (e.perform call).after.SteadyAfter (n + 1) :=
  h.next_of_le (Nat.le_of_lt hn) call

theorem Engine.SteadyAfter.mono {n m : Nat} {e : Engine} (h : e.SteadyAfter n) (hle : n ≤ m) :
    e.SteadyAfter m := by
  have hbound := Int.mul_le_mul_of_nonneg_right (Int.ofNat_le.mpr hle)
    (by decide : 0 ≤ maxOrderQuantity.atoms)
  have hslack := Nat.mul_le_mul_left Precision.coarse.slack
    (Nat.mul_le_mul hle (Nat.add_le_add_right hle 3))
  exact Engine.Steady.mono h hbound (Int.ofNat_le.mpr hslack) hle

/-- The call lists an instrument. All other calls are about orders. -/
def Call.lists : Call → Bool
  | .addInstrument _ => true
  | .submit _ _ | .cancel _ _ | .modify _ _ _ => false

/-- How many calls have been about orders. -/
def orderCalls (past : List Turn) : Nat := past.countP fun t => !t.call.lists

theorem orderCalls_perform (e : Engine) (call : Call) (past : List Turn) :
    orderCalls (e.perform call :: past) = orderCalls past + if call.lists then 0 else 1 := by
  unfold orderCalls
  rw [List.countP_cons, call_perform]
  cases call.lists <;> rfl

theorem orderCalls_suffix {past earlier : List Turn} (h : earlier <:+ past) :
    orderCalls earlier ≤ orderCalls past := h.sublist.countP_le

/-- A run without too many calls about orders has met no fault and has left all books `Steady`. -/
theorem History.steady_orderCalls {past : List Turn} {e : Engine} (h : Run past e)
    (hfew : orderCalls past < longRun) :
    (∀ t ∈ past, t.answer.fault? = none) ∧ e.SteadyAfter (orderCalls past) := by
  induction h with
  | start => exact ⟨fun t ht => (by cases ht), Engine.steady_empty _⟩
  | @turn past e call _ ih =>
      rw [orderCalls_perform] at hfew ⊢
      obtain ⟨hpast, hsteady⟩ := ih (by omega)
      have hturn : (e.perform call).answer.fault? = none ∧
          (e.perform call).after.SteadyAfter (orderCalls past + if call.lists then 0 else 1) := by
        cases call with
        | addInstrument config =>
            have hnonneg : 0 ≤ (orderCalls past : Int) * maxOrderQuantity.atoms ∧
                0 ≤ slackAfter (orderCalls past) :=
              ⟨Int.mul_nonneg (Int.natCast_nonneg _) (by decide), Int.natCast_nonneg _⟩
            exact ⟨rfl, Engine.addInstrument_steady hsteady config hnonneg⟩
        | submit world intent => exact hsteady.next (by omega) _
        | cancel world id => exact hsteady.next (by omega) _
        | modify world id request => exact hsteady.next (by omega) _
      refine ⟨fun t ht => ?_, hturn.2⟩
      rcases List.mem_cons.mp ht with rfl | ht
      · exact hturn.1
      · exact hpast t ht

/-- A run that is not too long has met no fault and has left all books `Steady`. -/
theorem History.steady {past : List Turn} {e : Engine} (h : Run past e)
    (hlen : past.length < longRun) :
    (∀ t ∈ past, t.answer.fault? = none) ∧ e.SteadyAfter past.length := by
  have hle : orderCalls past ≤ past.length := List.countP_le_length
  obtain ⟨hok, hsteady⟩ := h.steady_orderCalls (by omega)
  exact ⟨hok, hsteady.mono hle⟩

/-- A book at rest: bids below asks, no level without orders, and best prices at which orders
rest that the book can show. -/
structure Book.AtRest (b : Book) : Prop where
  best_lt : ∀ bid ask, b.bestBid? = some bid → b.bestAsk? = some ask → bid < ask
  packed : ∀ side, ∀ level ∈ (b.ladder side).levels, level.orders ≠ []
  real : ∀ side price, (b.ladder side).bestPrice? = some price →
    ∃ o p, b.get? o.id = some o ∧ o.side = side ∧ o.price = some p ∧ p.SameValue price

theorem Engine.Steady.atRest {p : Precision} {bound off : Int} {count : Nat} {e : Engine}
    (h : e.Steady p bound off count) {slot : Slot} (hslot : slot ∈ e.slots) :
    slot.book.AtRest := by
  obtain ⟨i, hi⟩ := List.getElem?_of_mem hslot
  have hbook := h.book i slot hi
  refine ⟨fun bid ask => hbook.apart.best_lt hbook.sound hbook.balanced.packed,
    hbook.balanced.packed, ?_⟩
  intro side price hbest
  obtain ⟨o, p, ho, hside, hp, hv⟩ :=
    hbook.sound.bestPrice?_real hbook.balanced.packed side hbest
  exact ⟨o, p, hbook.sound.get?_eq ho, hside, hp, hv⟩

/-- No call of a run of fewer than ten thousand million finds a book crossed at rest, and after each
of them every book is `AtRest`. -/
theorem not_crossed_at_rest {past : List Turn} {e : Engine} (h : Run past e)
    (hlen : past.length < 10000000000) :
    ∀ t ∈ past, (∀ symbol, t.answer.fault? ≠ some (.crossedAtRest symbol)) ∧
      ∀ slot ∈ t.after.slots, slot.book.AtRest := by
  intro t ht
  obtain ⟨earlier, hrun, hsuffix⟩ := h.upTo ht
  obtain ⟨-, hsteady⟩ := hrun.steady (Nat.lt_of_le_of_lt hsuffix.length_le hlen)
  refine ⟨fun symbol hf => ?_, fun slot hslot => hsteady.atRest hslot⟩
  rw [(h.steady hlen).1 t ht] at hf
  cases hf

/-- Someone bids 1 for two, one is sold at that price, and another is offered at 2. -/
def quotes : List Call :=
  [.addInstrument (.plain "X"),
    .submit (.handing 1) (.limit "X" .buy 1 (.scaled 2 0)),
    .submit (.handing 2) (.limit "X" .sell 1 1),
    .submit (.handing 3) (.limit "X" .sell (.scaled 2 0) 1)]

theorem not_crossed_at_rest_quotes :
    (∀ t ∈ ((Engine.empty .priceTime).follow [] quotes).1, ∀ slot ∈ t.after.slots,
        slot.book.AtRest) ∧
      ((Engine.empty .priceTime).follow [] quotes).2.slots.map
          (fun slot => (slot.book.bestBid?, slot.book.bestAsk?)) =
        [(some 1, some (.whole 2 (by decide)))] := by
  have hlen : ((Engine.empty .priceTime).follow [] quotes).1.length = 4 := by
    decide +kernel
  have hrest := not_crossed_at_rest (History.start.follow quotes) (by rw [hlen]; decide)
  exact ⟨fun t ht => (hrest t ht).2, by decide +kernel⟩

end Bourse
