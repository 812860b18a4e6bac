import Bourse.Proofs.Engine.FillOrKill
import Bourse.Proofs.Run.Conservation
import Bourse.Proofs.Run.Parted

/-!
# All or nothing

An order that must trade as a whole is killed if `crossingLiquidity` counts less across
than it wants, and else it trades at once (`FillsOrKills`). As long as no sum is rounded
that makes it `AllOrNothing`: the order is filled if what suits it is enough, and
otherwise it might never have come.

The sum of a level may be rounded, and then the count is wrong by a little. A count that
is too high lets an order trade that is not filled (`dusted`), one that is too low kills
an order that would have been (`halved`). Beyond `ExactRange` nothing more can be said
than that it is all or nothing wherever the count is right and nothing is rounded while
the order trades.
-/

namespace Bourse

open Decimal (Precision)

namespace Engine

variable {e : Engine} {world : Surroundings} {intent : OrderIntent} {i : Nat} {slot : Slot}
  {r : OrderResult}

theorem not_waits_of_whole (hfok : intent.timeInForce = .fillOrKill) :
    ¬ Desk.Waits (e.entering world intent) := by
  rintro ⟨-, hwait⟩
  rw [show (e.entering world intent).timeInForce = .fillOrKill from hfok] at hwait
  cases hwait

theorem submit_fillsOrKills (h : e.Sound) (hb : slot.book.Parted)
    (ha : e.Admits world intent i slot) (hr : (e.submit world intent).answer = .ok (.ok r))
    (hfok : intent.timeInForce = .fillOrKill) :
    e.FillsOrKills (e.entering world intent) i slot r (e.submit world intent) where
  killed := by
    intro hshort
    obtain ⟨r', hr', hkilled⟩ := submit_killed h ha hb.isCrossed_eq hfok hshort
    rw [hr] at hr'
    cases hr'
    exact hkilled
  traded := by
    intro henough
    have hpos : 0 < (e.entering world intent).remaining := (passed_of_checkIntent ha.checked).pos
    obtain ⟨moments, e', -, -, honce, hslots⟩ := submit_atOnce h ha hr hb.packed
      (not_waits_of_whole hfok) fun _ => henough
    have hcounted : 0 < (e.entering world intent).count slot.book := Int.lt_of_lt_of_le hpos henough
    obtain ⟨maker, line, hline, hmeets⟩ := hb.sound.meets_of_counted hb.packed hcounted
    exact ⟨honce.trades_ne_nil hpos hline hmeets, _, e', honce, hslots⟩

/-- In an `Exact` book it is all or nothing. -/
theorem submit_all_or_nothing {p : Precision} (h : e.Sound) (hb : slot.book.Parted)
    (ha : e.Admits world intent i slot) (hr : (e.submit world intent).answer = .ok (.ok r))
    (hfok : intent.timeInForce = .fillOrKill) (hexact : slot.book.Exact p) (hp : p.slack = 0)
    (hgrid : p.grid ∣ intent.quantity.atoms) (hcap : intent.quantity.atoms ≤ p.cap) :
    e.AllOrNothing (e.entering world intent) slot.book r (e.submit world intent) := by
  refine (submit_fillsOrKills h hb ha hr hfok).all_or_nothing_iff.mpr ⟨?_, ?_⟩
  · obtain ⟨hle, heq⟩ := hexact.crossingLiquidity hp (e.entering world intent) intent.quantity
    constructor
    · intro henough
      exact Int.le_trans henough hle
    · intro henough
      by_contra hshort
      have hcount := heq (Int.not_le.mp hshort)
      exact hshort (Int.le_trans henough (Int.le_of_eq hcount.symm))
  · intro henough
    obtain ⟨moments, e', hm, hstop, honce, -⟩ := submit_atOnce h ha hr hb.packed
      (not_waits_of_whole hfok) fun _ => henough
    have hpos := (passed_of_checkIntent ha.checked).pos
    exact honce.whole hm hstop hexact hp ⟨rfl, hpos, hgrid⟩ hcap henough

end Engine

/-- What is accepted in `ExactRange` lies on the grid and within the range. -/
theorem ExactRange.of_submit {past : List Turn} {e : Engine} {k : Nat} {world : Surroundings}
    {intent : OrderIntent} {r : OrderResult} (h : Run past e)
    (hr : ExactRange k (e.perform (.submit world intent) :: past))
    (ha : (e.submit world intent).answer = .ok (.ok r)) :
    (Precision.exact k hr.le).grid ∣ intent.quantity.atoms ∧
      intent.quantity.atoms ≤ (Precision.exact k hr.le).cap := by
  have haccepted : (e.perform (.submit world intent) :: past).filterMap Turn.accepted? =
      intent.quantity :: past.filterMap Turn.accepted? := by
    rw [List.filterMap_cons, accepted?_submit ha]
    rfl
  have hbefore : 0 ≤ exactSum (past.filterMap Turn.accepted?) :=
    exactSum_nonneg fun q hq => Int.le_of_lt (h.accepted_pos q hq)
  have hcap := hr.le_cap
  rw [haccepted, exactSum_cons] at hcap
  refine ⟨hr.multiple _ ?_, by omega⟩
  rw [haccepted]
  exact List.mem_cons_self

/-- What becomes of an accepted order that must trade as a whole. -/
structure FillOrKill (past : List Turn) (e : Engine) (world : Surroundings) (intent : OrderIntent)
    (r : OrderResult) (i : Nat) (slot : Slot) : Prop where
  found : e.lookup? intent.symbol = some (i, slot)
  decided : e.FillsOrKills (e.entering world intent) i slot r (e.submit world intent)
  all_or_nothing_iff :
    e.AllOrNothing (e.entering world intent) slot.book r (e.submit world intent) ↔
    (intent.quantity ≤ (e.entering world intent).count slot.book ↔
      intent.quantity.atoms ≤ (e.entering world intent).offered slot.book) ∧
    (intent.quantity ≤ (e.entering world intent).count slot.book → r.Whole intent.quantity)
  all_or_nothing : ∀ k, ExactRange k (e.perform (.submit world intent) :: past) →
    e.AllOrNothing (e.entering world intent) slot.book r (e.submit world intent)

/-- After any run without faults an order that must trade as a whole is killed or trades at once, as
the count of what suits it says. It is all or nothing just when the count is right and what trades
is filled, and so it always is in `ExactRange`. -/
theorem fill_or_kill {past : List Turn} {e : Engine} (h : Run past e) (hok : Faultless past)
    {world : Surroundings} {intent : OrderIntent} {r : OrderResult}
    (ha : (e.submit world intent).answer = .ok (.ok r))
    (hfok : intent.timeInForce = .fillOrKill) :
    ∃ i slot, FillOrKill past e world intent r i slot := by
  obtain ⟨hs, -, -⟩ := h.orderly hok
  obtain ⟨i, slot, d, hadm, -⟩ := Engine.submit_of_ok hs ha
  have hslot := Engine.slot_of_lookup? hadm.found
  have hparted := h.parted hok i slot hslot
  have hdecided := Engine.submit_fillsOrKills hs hparted hadm ha hfok
  refine ⟨i, slot, hadm.found, hdecided, hdecided.all_or_nothing_iff, fun k hr => ?_⟩
  have hbefore := hr.suffix (h.turn _) (List.suffix_cons _ _)
  obtain ⟨hsteady, -⟩ := h.exact hbefore
  have hexact := (hsteady.book i slot hslot).balanced.exact hparted.sound hbefore.le_cap
  obtain ⟨hgrid, hcap⟩ := hr.of_submit h ha
  exact Engine.submit_all_or_nothing hs hparted hadm ha hfok hexact rfl hgrid hcap

/-- The order that an intent has become, if it is accepted. -/
def Engine.accepted? (e : Engine) (world : Surroundings) (intent : OrderIntent) :
    Option OrderResult :=
  match (e.submit world intent).answer with
  | .ok (.ok r) => some r
  | _ => none

theorem Engine.accepted?_eq_some {e : Engine} {world : Surroundings} {intent : OrderIntent}
    {r : OrderResult} :
    e.accepted? world intent = some r ↔ (e.submit world intent).answer = .ok (.ok r) := by
  unfold accepted?
  split
  · next r' ha =>
      rw [ha]
      exact ⟨fun h => by cases h; rfl, fun h => by cases h; rfl⟩
  · next hnot => exact ⟨nofun, fun h => absurd h (hnot r)⟩

/-- A bid that must be filled as a whole. -/
def OrderIntent.wholeBid (price : Price) (quantity : Quantity) : OrderIntent :=
  { OrderIntent.limit "X" .buy price quantity with timeInForce := .fillOrKill }

/-- Eight are offered at 1 and five at 2. -/
def offers : List Call :=
  [.addInstrument (.plain "X"),
    .submit (.handing 1) (.limit "X" .sell 1 (.scaled 8 0)),
    .submit (.handing 2) (.limit "X" .sell (.scaled 2 0) (.scaled 5 0))]

/-- Nine are not to be had at 1, and they are at 2. -/
theorem fill_or_kill_offers :
    (∀ price ∈ [1, Decimal.scaled 2 0], ∃ r i slot,
      ((Engine.empty .priceTime).follow [] offers).2.accepted? (.handing 3)
          (.wholeBid price (.scaled 9 0)) = some r ∧
        FillOrKill ((Engine.empty .priceTime).follow [] offers).1
          ((Engine.empty .priceTime).follow [] offers).2 (.handing 3)
          (.wholeBid price (.scaled 9 0)) r i slot) ∧
      [1, Decimal.scaled 2 0].map (fun price =>
          (((Engine.empty .priceTime).follow [] offers).2.accepted? (.handing 3)
            (.wholeBid price (.scaled 9 0))).map fun r => (r.status, r.trades.length)) =
        [some (.cancelled, 0), some (.filled, 2)] := by
  have hall : ∀ price ∈ [1, Decimal.scaled 2 0],
      (((Engine.empty .priceTime).follow [] offers).2.accepted? (.handing 3)
        (.wholeBid price (.scaled 9 0))).isSome = true := by decide +kernel
  refine ⟨fun price hprice => ?_, by decide +kernel⟩
  obtain ⟨r, hr⟩ := Option.isSome_iff_exists.mp (hall price hprice)
  obtain ⟨i, slot, hends⟩ := fill_or_kill (History.start.follow offers) (by decide +kernel)
    (Engine.accepted?_eq_some.mp hr) rfl
  exact ⟨r, i, slot, hr, hends⟩

/-- Eight and `6 * 10 ^ -28` are offered at 1. They add up to more digits than a decimal holds and
are counted as eight and `10 ^ -27`. -/
def dusted : List Call :=
  [.addInstrument (.plain "X"),
    .submit (.handing 1) (.limit "X" .sell 1 (.scaled 8 0)),
    .submit (.handing 2) (.limit "X" .sell 1 (.scaled 6 28))]

/-- A bid for as much as is counted. -/
def dustedBid : OrderIntent := .wholeBid 1 (.scaled 8000000000000000000000000001 27)

/-- It is not always all or nothing: a bid for more than is offered takes both and is cancelled. -/
theorem filled_in_part_dusted :
    ¬ ∀ past e, Run past e → Faultless past → ∀ world intent r, intent.orderType = .limit →
      intent.timeInForce = .fillOrKill → (e.submit world intent).answer = .ok (.ok r) →
      ∃ i slot, e.lookup? intent.symbol = some (i, slot) ∧
        e.AllOrNothing (e.entering world intent) slot.book r (e.submit world intent) := by
  intro h
  have htraded : (((Engine.empty .priceTime).follow [] dusted).2.accepted? (.handing 3)
      dustedBid).any (fun r => !r.trades.isEmpty) = true := by decide +kernel
  have hshort : (((Engine.empty .priceTime).follow [] dusted).2.lookup? "X").all (fun place =>
      decide ((((Engine.empty .priceTime).follow [] dusted).2.entering (.handing 3)
        dustedBid).offered place.2.book < dustedBid.quantity.atoms)) = true := by decide +kernel
  obtain ⟨r, hr, hsome⟩ := (Option.any_eq_true _ _).mp htraded
  obtain ⟨i, slot, hfound, hall⟩ := h _ _ (History.start.follow dusted) (by decide +kernel)
    (.handing 3) dustedBid r rfl rfl (Engine.accepted?_eq_some.mp hr)
  rw [show dustedBid.symbol = "X" from rfl] at hfound
  rw [hfound] at hshort
  have hkilled := hall.nothing (of_decide_eq_true hshort)
  rw [hkilled.result] at hsome
  cases hsome

/-- Eight and twice `5 * 10 ^ -28` are offered at 1, and half a digit is rounded off each time. -/
def halved : List Call :=
  [.addInstrument (.plain "X"),
    .submit (.handing 1) (.limit "X" .sell 1 (.scaled 8 0)),
    .submit (.handing 2) (.limit "X" .sell 1 (.scaled 5 28)),
    .submit (.handing 3) (.limit "X" .sell 1 (.scaled 5 28))]

-- A count may be too low as well: here the bid is for all that is offered, and is killed.
example :
    (((Engine.empty .priceTime).follow [] halved).2.accepted? (.handing 4) dustedBid).map
        (fun r => (r.status, r.trades.length)) = some (.cancelled, 0) ∧
      (((Engine.empty .priceTime).follow [] halved).2.lookup? "X").map (fun place =>
        (((Engine.empty .priceTime).follow [] halved).2.entering (.handing 4)
          dustedBid).offered place.2.book) = some dustedBid.quantity.atoms := by
  decide +kernel

end Bourse
