import Bourse.Proofs.Engine.Checks
import Bourse.Proofs.Engine.Stopped
import Bourse.Proofs.Ledger.Turns

/-!
# Trades are drawn from what an order asks for

No fill takes more than what decimal subtraction has left of an order. That is all the
guard against overfilling can see to, and here is what it is worth: the trades of an
account are drawn one after another from the quantity it asks for (`Draws`), and the sum
of the trades and of what is left is that quantity with all that rounding has added on the
way (`Draws.balance`). So an order keeps to what it asks for exactly if rounding has added
no more than is left (`Draws.le_iff`). Where every remainder has a decimal of its own,
rounding adds nothing; where not, it adds at most half a unit of the tenth place with each
trade (`Draws.gain_le`).
-/

namespace Bourse

open Decimal

/-- The trades, the latest first, are drawn from a quantity: each is positive and at most what is
left after those before it. The last number is what rounding has added to what is left, in all. -/
inductive Draws (asked : Quantity) : List Quantity → Quantity → Int → Prop
  | none : Draws asked [] asked 0
  | some {trades : List Quantity} {left left' q : Quantity} {gain : Int} :
      Draws asked trades left gain → 0 < q → q ≤ left → left.sub q = .ok left' →
      Draws asked (q :: trades) left' (gain + (left'.atoms - (left.atoms - q.atoms)))

namespace Draws

variable {asked left q : Quantity} {trades : List Quantity} {gain : Int}

theorem balance (h : Draws asked trades left gain) :
    exactSum trades + left.atoms = asked.atoms + gain := by
  induction h with
  | none =>
      rw [exactSum_nil, Int.zero_add, Int.add_zero]
  | some _ _ _ _ ih =>
      rw [exactSum_cons]
      omega

/-- No more is traded than was asked for exactly if rounding has added no more than is left. -/
theorem le_iff (h : Draws asked trades left gain) :
    exactSum trades ≤ asked.atoms ↔ gain ≤ left.atoms := by
  have := h.balance
  omega

theorem left_le (h : Draws asked trades left gain) : left.atoms ≤ asked.atoms := by
  induction h with
  | none => exact Int.le_refl _
  | some _ hpos _ hsub ih => exact Int.le_trans (sub_le hsub (Int.le_of_lt hpos)) ih

/-- Order quantities are small, so one draw adds at most half a unit of the tenth place. -/
theorem gain_le (h : Draws asked trades left gain) (hmost : asked ≤ maxOrderQuantity) :
    2 * gain ≤ trades.length * tenTo 18 := by
  induction h with
  | none => exact Int.le_of_eq (Int.zero_mul _).symm
  | @some trades left left' q gain h hpos hle hsub ih =>
      have hpos : 0 < q.atoms := hpos
      have hle : q.atoms ≤ left.atoms := hle
      have hmost : asked.atoms ≤ (tenTo 28 * tenTo 18 : Nat) := hmost
      have hleft := h.left_le
      have hsize : (left.atoms - q.atoms).natAbs ≤ tenTo 28 * tenTo 18 := by omega
      obtain ⟨hup, -⟩ := sub_fine (t := 10) hsub (by decide) hsize
      change 2 * left'.atoms ≤ 2 * (left.atoms - q.atoms) + tenTo 18 at hup
      rw [List.length_cons, Int.natCast_succ, Int.add_mul]
      omega

/-- Where every remainder is `Representable`, rounding adds nothing. -/
theorem gain_eq_zero (h : Draws asked trades left gain)
    (hr : ∀ earlier, earlier <:+ trades → Representable (asked.atoms - exactSum earlier)) :
    gain = 0 := by
  induction h with
  | none => rfl
  | @some trades left left' q gain h hpos hle hsub ih =>
      have hgain := ih fun earlier hearlier => hr earlier (hearlier.trans (List.suffix_cons _ _))
      have hbalance := h.balance
      have hall := hr (q :: trades) (List.suffix_refl _)
      rw [exactSum_cons] at hall
      have hexact : left'.atoms = left.atoms - q.atoms :=
        sub_exact hsub (by rwa [show left.atoms - q.atoms =
          asked.atoms - (q.atoms + exactSum trades) by omega])
      omega

end Draws

/-- What the guard against overfilling is worth: the trades of the account are drawn from what it
asks for, and keep to it exactly if rounding has added no more than is left. -/
structure Account.Guarded (a : Account) : Prop where
  drawn : ∃ left gain, Draws a.quantity a.trades left gain ∧ 0 ≤ left.atoms ∧
    (exactSum a.trades ≤ a.quantity.atoms ↔ gain ≤ left.atoms) ∧
    2 * gain ≤ a.trades.length * tenTo 18
  exact : (∀ earlier, earlier <:+ a.trades → Representable (a.quantity.atoms - exactSum earlier)) →
    exactSum a.trades ≤ a.quantity.atoms

/-- The account is right about an order up to rounding. An order that has traded untold may have
less left than its account says, but not in a `faultless` run. -/
structure Account.Drawn (faultless : Prop) (a : Account) (asked remaining : Quantity) : Prop where
  quantity_eq : a.quantity = asked
  le_most : asked ≤ maxOrderQuantity
  nonneg : 0 ≤ remaining
  draws : ∃ left gain, Draws asked a.trades left gain ∧ remaining ≤ left ∧
    (faultless → remaining = left)

namespace Account

variable {faultless : Prop} {a : Account} {asked remaining q : Quantity}

theorem drawn_opened (id : OrderId) (hq : 0 ≤ q) (hmost : q ≤ maxOrderQuantity) :
    (opened id q).Drawn faultless q q :=
  ⟨rfl, hmost, hq, q, 0, .none, Int.le_refl _, fun _ => rfl⟩

theorem Drawn.guarded (h : a.Drawn faultless asked remaining) : a.Guarded := by
  obtain ⟨left, gain, hdraws, hle, -⟩ := h.draws
  have hmost := h.le_most
  have hleft : 0 ≤ left.atoms := Int.le_trans h.nonneg hle
  rw [← h.quantity_eq] at hdraws hmost
  refine ⟨⟨left, gain, hdraws, hleft, hdraws.le_iff, hdraws.gain_le hmost⟩, fun hr => ?_⟩
  have hgain := hdraws.gain_eq_zero hr
  have hbalance := hdraws.balance
  omega

theorem Drawn.fill {r : Quantity} (h : a.Drawn faultless asked remaining) (hpos : 0 < q)
    (hle : q ≤ remaining) (hr : remaining.sub q = .ok r) :
    (a.trade q).Drawn faultless asked r := by
  obtain ⟨left, gain, hdraws, hremaining, hsame⟩ := h.draws
  have hq : q ≤ left := Int.le_trans hle hremaining
  obtain ⟨left', hleft'⟩ := sub_isOk (Int.le_of_lt hpos) hq
  refine ⟨h.quantity_eq, h.le_most, sub_nonneg hr hle, left', _, .some hdraws hpos hq hleft',
    sub_mono hr hleft' hremaining, fun hf => ?_⟩
  rw [hsame hf, hleft'] at hr
  cases hr
  rfl

theorem Drawn.tell {filled : Quantity} (h : a.Drawn faultless asked remaining) :
    (a.tell remaining filled).Drawn faultless asked remaining ∧
      (a.tell remaining filled).Guarded := by
  have htold : (a.tell remaining filled).Drawn faultless asked remaining :=
    ⟨h.quantity_eq, h.le_most, h.nonneg, h.draws⟩
  exact ⟨htold, htold.guarded⟩

/-- A trade that nobody has been told of leaves less than the account says. -/
theorem Drawn.wear {r : Quantity} (h : a.Drawn faultless asked remaining) (hf : ¬ faultless)
    (hnonneg : 0 ≤ r) (hle : r ≤ remaining) : a.Drawn faultless asked r := by
  obtain ⟨left, gain, hdraws, hremaining, -⟩ := h.draws
  exact ⟨h.quantity_eq, h.le_most, hnonneg, left, gain, hdraws, Int.le_trans hle hremaining,
    fun hf' => absurd hf' hf⟩

end Account

/-- The `Keeping` of accounts that are right up to rounding. -/
def Keeping.drawn (faultless : Prop) : Keeping where
  Right := Account.Drawn faultless
  Lawful := Account.Guarded
  Fits _ := True
  quantity_eq := Account.Drawn.quantity_eq
  fits _ := trivial
  fill h _ := h.fill
  tell h _ := h.tell

namespace Keeping

variable {faultless : Prop} {L : Ledger} {e : Engine} {world : Surroundings} {id : OrderId}

theorem Keeps.wear {o x : Order} (h : (drawn faultless).Keeps L o) (hfilled : o.Filled x)
    (hf : ¬ faultless) : (drawn faultless).Keeps L x := by
  obtain ⟨a, ha, hright⟩ := h
  refine ⟨a, hfilled.same.id_eq ▸ ha, ?_⟩
  show a.Drawn faultless x.quantity x.remaining
  rw [hfilled.quantity_eq]
  exact hright.wear hf (hfilled.remaining_nonneg hright.nonneg) hfilled.remaining_le

theorem drawn_submit {intent : OrderIntent} (hL : (drawn faultless).Agrees L e.Resting)
    (hs : e.Sound)
    (hfault : faultless → (e.perform (.submit world intent)).answer.fault? = none) :
    (drawn faultless).Entered L (e.perform (.submit world intent)) := by
  by_cases hadmits : ∃ i slot, e.Admits world intent i slot
  · obtain ⟨i, slot, hadm⟩ := hadmits
    have hpassed := Engine.passed_of_checkIntent hadm.checked
    have hopen (id : OrderId) : (Account.opened id intent.quantity).Drawn faultless
        intent.quantity intent.quantity :=
      Account.drawn_opened id (Int.le_of_lt hpassed.pos) hpassed.le
    cases ha : (e.submit world intent).answer with
    | ok r =>
        cases r with
        | error why => exact absurd hadm (Engine.not_admits_of_rejected ha i slot)
        | ok r => exact entered_submit hL hs ha hopen
    | error f =>
        have hf : ¬ faultless := by
          intro hf
          have hnone : (Answer.submitted (e.submit world intent).answer).fault? = none := hfault hf
          rw [ha] at hnone
          cases hnone
        obtain ⟨hsilent, hworn⟩ := Engine.submit_stopped hs hadm ha
        refine entered_aborted hL ha hsilent (fun _ => (hopen _).guarded) ?_
        rintro x ⟨j, hx⟩
        rcases hworn j x hx with ⟨o, ho, hfilled⟩ | hfilled
        · exact ((hL.keeps o ⟨j, ho⟩).prepared hs ⟨j, ho⟩).wear hfilled hf
        · rw [prepare_submit hadm]
          refine Keeps.wear (o := e.entering world intent) ?_ hfilled hf
          exact ⟨_, (Ledger.newest?_cons _ L _).trans (if_pos rfl), hopen _⟩
  · exact entered_refused hL hs fun i slot hadm => hadmits ⟨i, slot, hadm⟩

theorem drawn_cancel (hL : (drawn faultless).Agrees L e.Resting) (hs : e.Sound)
    (hfault : faultless → (e.perform (.cancel world id)).answer.fault? = none) :
    (drawn faultless).Entered L (e.perform (.cancel world id)) := by
  cases ha : (e.cancel world id).answer with
  | ok r => exact entered_cancel hL hs ha
  | error f =>
      have hf : ¬ faultless := by
        intro hf
        have hnone : (Answer.cancelled (e.cancel world id).answer).fault? = none := hfault hf
        rw [ha] at hnone
        cases hnone
      obtain ⟨hsilent, hworn⟩ := Engine.cancel_stopped hs ha
      refine entered_silent rfl hsilent ?_ rfl ⟨?_, hL.lawful⟩
      · show (Answer.cancelled (e.cancel world id).answer).order? = none
        rw [ha]
        rfl
      · rintro x ⟨j, hx⟩
        obtain ⟨o, ho, hfilled⟩ := hworn j x hx
        exact (hL.keeps o ⟨j, ho⟩).wear hfilled hf

end Keeping

end Bourse
