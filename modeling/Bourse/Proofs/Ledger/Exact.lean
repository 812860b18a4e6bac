import Bourse.Proofs.Engine.Aborted
import Bourse.Proofs.Ledger.Turns

/-!
# Exact accounts

Where sums are exact the accounts are, too: an order has traded just what it asks for less
what is left of it (`Account.Exact`), and what an update says is filled is the sum of the
trades (`Account.Balances`). A call that is accepted keeps to the grid of the quantities;
a call that is not changes no account. Both are `Entered` in the ledger by the `Keeping`
of exact accounts.
-/

namespace Bourse

open Decimal

/-- The account is exactly right about an order whose quantities are in range. -/
structure Account.Exact (p : Precision) (a : Account) (asked left : Quantity) : Prop where
  quantity_eq : a.quantity = asked
  grid_asked : p.grid ∣ asked.atoms
  grid_left : p.grid ∣ left.atoms
  nonneg : 0 ≤ left.atoms
  le : left.atoms ≤ asked.atoms
  le_cap : asked.atoms ≤ p.cap
  traded_eq : a.traded = asked.atoms - left.atoms

/-- What an order asks for is what is filled and what is left of it, and what is filled is what it
has traded. -/
structure Account.Balances (a : Account) : Prop where
  quantity_eq : a.quantity.atoms = a.filled.atoms + a.remaining.atoms
  filled_eq : a.filled.atoms = a.traded

namespace Account

variable {p : Precision} {a : Account} {asked left q : Quantity} {o : Order}

theorem balances_opened (id : OrderId) (q : Quantity) : (opened id q).Balances := by
  refine ⟨?_, ?_⟩
  · show q.atoms = (0 : Decimal).atoms + q.atoms
    rw [atoms_zero, Int.zero_add]
  · exact atoms_zero

theorem exact_opened (id : OrderId) (hq : p.grid ∣ q.atoms) (hnonneg : 0 ≤ q.atoms)
    (hcap : q.atoms ≤ p.cap) : (opened id q).Exact p q q :=
  ⟨rfl, hq, hq, hnonneg, Int.le_refl _, hcap, (Int.sub_self _).symm⟩

/-- Without slack a difference in range is exact. -/
theorem Exact.filled (h : a.Exact p asked left) (hp : p.slack = 0) {f : Quantity}
    (hf : asked.sub left = .ok f) : p.grid ∣ f.atoms ∧ f.atoms = asked.atoms - left.atoms := by
  have hnonneg := h.nonneg
  have hle := h.le
  have hcap := h.le_cap
  obtain ⟨c, hc, hgrid, hup, hlo⟩ :=
    p.sub_of_le h.grid_asked h.grid_left (by omega) (by omega)
  rw [hf] at hc
  cases hc
  rw [hp] at hup hlo
  exact ⟨hgrid, by omega⟩

theorem Exact.fill {r : Quantity} (h : a.Exact p asked left) (hp : p.slack = 0)
    (hq : p.grid ∣ q.atoms) (hpos : 0 < q) (hle : q ≤ left) (hr : left.sub q = .ok r) :
    (a.trade q).Exact p asked r := by
  have hnonneg := h.nonneg
  have hmost := h.le
  have hcap := h.le_cap
  have htraded := h.traded_eq
  have hpos : (0 : Int) < q.atoms := hpos
  have hle : q.atoms ≤ left.atoms := hle
  obtain ⟨c, hc, hgrid, hup, hlo⟩ := p.sub_of_le h.grid_left hq (by omega) (by omega)
  rw [hr] at hc
  cases hc
  rw [hp] at hup hlo
  refine ⟨h.quantity_eq, h.grid_asked, hgrid, by omega, by omega, hcap, ?_⟩
  rw [traded_trade]
  omega

theorem Exact.tell (h : a.Exact p asked left) (hp : p.slack = 0) {f : Quantity}
    (hf : asked.sub left = .ok f) :
    (a.tell left f).Exact p asked left ∧ (a.tell left f).Balances := by
  have hexact := (h.filled hp hf).2
  have htraded := h.traded_eq
  refine ⟨⟨h.quantity_eq, h.grid_asked, h.grid_left, h.nonneg, h.le, h.le_cap, h.traded_eq⟩, ?_, ?_⟩
  · show a.quantity.atoms = f.atoms + left.atoms
    rw [h.quantity_eq, hexact]
    omega
  · show f.atoms = a.traded
    rw [hexact, htraded]

/-- An order may ask for more or for less, if that stays in range. -/
theorem Exact.ask (h : a.Exact p asked left) (hp : p.slack = 0) (hq : p.grid ∣ q.atoms)
    (hpos : 0 < q) (hcap : asked.atoms + q.atoms ≤ p.cap) {f asked' : Quantity}
    (hf : asked.sub left = .ok f) (hsum : f.add q = .ok asked') :
    (a.ask asked').Exact p asked' q := by
  obtain ⟨hgrid, hfilled⟩ := h.filled hp hf
  have hnonneg := h.nonneg
  have hle := h.le
  have htraded := h.traded_eq
  have hpos : (0 : Int) < q.atoms := hpos
  obtain ⟨c, hc, hgrid', hup, hlo⟩ := p.add_of_le hgrid hq (by omega) (by omega)
  rw [hsum] at hc
  cases hc
  rw [hp] at hup hlo
  refine ⟨rfl, hgrid', hq, by omega, by omega, by omega, ?_⟩
  rw [traded_ask]
  omega

theorem Exact.shows (h : a.Exact p o.quantity o.remaining) (hp : p.slack = 0) (hb : a.Balances) :
    a.Shows o := by
  have hquantity := hb.quantity_eq
  have hfilled := hb.filled_eq
  have htraded := h.traded_eq
  rw [h.quantity_eq] at hquantity
  obtain ⟨f, hf⟩ : ∃ f, o.filled = .ok f := Order.Sized.filled_isOk ⟨h.nonneg, h.le⟩
  have hexact := (h.filled hp (Order.filled_eq_ok.mp hf)).2
  exact ⟨by rw [h.quantity_eq], by omega, f, hf, by omega⟩

end Account

/-- The `Keeping` of accounts where sums are exact. -/
def Keeping.exact (p : Precision) (hp : p.slack = 0) : Keeping where
  Right := Account.Exact p
  Lawful := Account.Balances
  Fits q := p.grid ∣ q.atoms
  quantity_eq := Account.Exact.quantity_eq
  fits := Account.Exact.grid_left
  fill h := h.fill hp
  tell h := h.tell hp

namespace Keeping

variable {p : Precision} {hp : p.slack = 0} {bound : Int} {count : Nat} {e : Engine} {L : Ledger}
  {world : Surroundings} {id : OrderId} {f : Fault}

theorem drift_eq_zero (hp : p.slack = 0) (count : Nat) : p.drift count = 0 := by
  unfold Precision.drift
  rw [hp]
  simp

/-- An order that is accepted on the grid and within range is accounted for exactly. -/
theorem exact_submit {intent : OrderIntent} {r : OrderResult} (h : e.Steady p bound 0 count)
    (hL : (exact p hp).Agrees L e.Resting) (ha : (e.submit world intent).answer = .ok (.ok r))
    (hgrid : p.grid ∣ intent.quantity.atoms) (hnonneg : 0 ≤ bound)
    (hcap : bound + intent.quantity.atoms ≤ p.cap) :
    (e.submit world intent).engine.Steady p (bound + intent.quantity.atoms) 0 (count + 1) ∧
      (exact p hp).Entered L (e.perform (.submit world intent)) := by
  have hdrift := drift_eq_zero hp count
  obtain ⟨i, slot, d, hadm, -, -, -⟩ := Engine.submit_of_ok h.sound ha
  have hpos : (0 : Int) < intent.quantity.atoms := (Engine.passed_of_checkIntent hadm.checked).pos
  have hsteady := (Engine.submit_steady h hadm hgrid (by omega)).2
  rw [hdrift] at hsteady
  exact ⟨hsteady, entered_submit hL h.sound ha fun id =>
    Account.exact_opened id hgrid (Int.le_of_lt hpos) (by omega)⟩

theorem exact_refused {intent : OrderIntent} {why : Rejection} (h : e.Steady p bound 0 count)
    (hL : (exact p hp).Agrees L e.Resting)
    (ha : (e.submit world intent).answer = .ok (.error why)) :
    (e.submit world intent).engine.Steady p bound 0 count ∧
      (exact p hp).Entered L (e.perform (.submit world intent)) := by
  have hnot := Engine.not_admits_of_rejected ha
  exact ⟨(Engine.submit_refused_steady h hnot).2, entered_refused hL h.sound hnot⟩

theorem exact_aborted {intent : OrderIntent} (h : e.Steady p bound 0 count)
    (hL : (exact p hp).Agrees L e.Resting) (ha : (e.submit world intent).answer = .error f)
    (hcap : bound ≤ p.cap) :
    (e.submit world intent).engine.Steady p bound 0 count ∧
      (exact p hp).Entered L (e.perform (.submit world intent)) := by
  have hdrift := drift_eq_zero hp count
  obtain ⟨hevents, hrests, hsteady⟩ := Engine.submit_error h (by omega) ha
  refine ⟨hsteady, entered_aborted hL ha hevents (fun _ => Account.balances_opened _ _) ?_⟩
  rintro o ⟨j, ho⟩
  have ho : e.Resting o := ⟨j, (hrests j o).mp ho⟩
  exact (hL.keeps o ho).prepared h.sound ho

theorem exact_cancel (h : e.Steady p bound 0 count) (hL : (exact p hp).Agrees L e.Resting)
    (hcap : bound ≤ p.cap) (world : Surroundings) (id : OrderId) :
    (e.cancel world id).engine.Steady p bound 0 count ∧
      (exact p hp).Entered L (e.perform (.cancel world id)) := by
  obtain ⟨⟨r, hr⟩, hsteady⟩ := Engine.cancel_steady h world id (by omega)
  rw [hp] at hsteady
  exact ⟨hsteady, entered_cancel hL h.sound hr⟩

/-- A modification that is carried out on the grid and within range is accounted for exactly. -/
theorem exact_modify {request : ModifyRequest} {r : OrderResult} (h : e.Steady p bound 0 count)
    (hL : (exact p hp).Agrees L e.Resting)
    (ha : (e.modify world id request).answer = .ok (.modified r))
    (hgrid : p.grid ∣ request.quantity.atoms) (hcap : bound + request.quantity.atoms ≤ p.cap) :
    (e.modify world id request).engine.Steady p (bound + request.quantity.atoms) 0 (count + 1) ∧
      (exact p hp).Entered L (e.perform (.modify world id request)) := by
  have hdrift := drift_eq_zero hp count
  refine ⟨?_, entered_modify hL h.sound h.live ha ?_⟩
  · rcases Engine.modify_of_ok h.sound ha with ⟨-, -, hnot⟩ | ⟨i, slot, d, hr, -, -, -⟩
    · exact absurd rfl (hnot r)
    · have hsteady := (Engine.modify_steady h world hr hgrid (by omega)).2
      rw [hdrift] at hsteady
      exact hsteady
  · rintro o a f asked ⟨i, slot, hslot, ho⟩ hright hf hpos hsum
    have hmost := ((h.book _ _ hslot).balanced.fit o ho).le_most
    exact hright.ask hp hgrid hpos (by omega) (Order.filled_eq_ok.mp hf) hsum

/-- A modification that is not carried out moves nothing. -/
theorem exact_unmodified {request : ModifyRequest} {r : ModifyResult}
    (h : e.Steady p bound 0 count) (hL : (exact p hp).Agrees L e.Resting)
    (ha : (e.modify world id request).answer = .ok r) (hnot : ∀ res, r ≠ .modified res) :
    (e.modify world id request).engine.Steady p bound 0 count ∧
      (exact p hp).Entered L (e.perform (.modify world id request)) := by
  refine ⟨?_, entered_unmodified hL h.sound ha hnot⟩
  rw [(Engine.modify_unmodified h.sound ha hnot).1]
  exact h

theorem exact_modify_error {request : ModifyRequest} (h : e.Steady p bound 0 count)
    (hL : (exact p hp).Agrees L e.Resting) (ha : (e.modify world id request).answer = .error f)
    (hcap : bound ≤ p.cap) :
    (e.modify world id request).engine.Steady p bound 0 count ∧
      (exact p hp).Entered L (e.perform (.modify world id request)) := by
  have hdrift := drift_eq_zero hp count
  obtain ⟨hevents, hrests, hsteady⟩ := Engine.modify_error h (by omega) ha
  rw [hp] at hsteady
  refine ⟨hsteady, entered_silent ?_ hevents ?_ rfl ⟨?_, hL.lawful⟩⟩
  · show Ledger.prepare L ⟨_, .modify _ _ _, .modified (e.modify world id request).answer, _, _⟩ = L
    rw [ha]
    rfl
  · show (Answer.modified (e.modify world id request).answer).order? = none
    rw [ha]
    rfl
  · rintro o ⟨j, ho⟩
    exact hL.keeps o ⟨j, hrests j o ho⟩

end Keeping

end Bourse
