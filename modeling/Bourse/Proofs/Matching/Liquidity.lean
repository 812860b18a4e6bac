import Bourse.Proofs.Book.Liquidity
import Bourse.Proofs.Ledger.Basic
import Bourse.Proofs.Matching.Greedy

/-!
# Matching takes what was counted

`crossingLiquidity` adds up the sums of levels and changes nothing; a matching goes from
order to order and changes the book as it goes. Both are told here by one number, the
`supply`, what is left of the orders in line that would suit: the count is that, unless it
stops early because there is enough, and `Order.walk` takes as much of it as it wants. So
in an `Exact` book the one predicts the other.
-/

namespace Bourse

open Decimal (Precision)

theorem Decimal.atoms_smaller (a b : Decimal) : (a.smaller b).atoms = min a.atoms b.atoms := by
  simp only [smaller, lt_def]
  split <;> omega

/-- What is taken of a `supply`, and what is left to be wanted. -/
structure Walk.Takes (supply wanted : Int) (w : Walk) : Prop where
  taken : exactSum (w.fills.map Fill.quantity) = min wanted supply
  left : w.incoming.remaining.atoms = wanted - min wanted supply

namespace Order

variable {p : Precision} {o maker : Order} {q : Quantity} {line : List Order} {price : Price}

theorem traded_exact (hp : p.slack = 0) (ho : p.grid ∣ o.remaining.atoms)
    (hq : p.grid ∣ q.atoms) (hnonneg : 0 ≤ q.atoms) (hle : q.atoms ≤ o.remaining.atoms)
    (hcap : o.remaining.atoms ≤ p.cap) :
    p.grid ∣ (o.traded q).remaining.atoms ∧
      (o.traded q).remaining.atoms = o.remaining.atoms - q.atoms := by
  have hneg : p.grid ∣ (-q).atoms := by
    rw [Decimal.atoms_neg]
    exact Int.dvd_neg.mpr hq
  have hsum : o.remaining.atoms + (-q).atoms = o.remaining.atoms - q.atoms := by
    rw [Decimal.atoms_neg, Int.sub_eq_add_neg]
  obtain ⟨hgrid, hleft⟩ := p.saturatingAdd_of_le hp ho hneg (by omega) (by omega)
  exact ⟨hgrid, hleft.trans hsum⟩

/-- Who has nothing left takes nothing. -/
theorem walk_takes_spent (hline : ∀ x ∈ line, 0 ≤ x.remaining.atoms)
    (h : o.remaining.atoms = 0) : (o.walk line).Takes (o.supply line) o.remaining.atoms := by
  have hsupply := supply_nonneg (o := o) hline
  rw [walk_spent (Int.le_of_eq h)]
  exact ⟨by simp; omega, by dsimp only; omega⟩

/-- Where the head of a line does not suit, nothing is supplied and nothing is taken. -/
theorem walk_takes_unsuited (hline : (maker :: line).Pairwise (Before o.side.opposite))
    (hnonneg : 0 ≤ o.remaining.atoms) (h : ¬ o.Meets maker) :
    (o.walk (maker :: line)).Takes (o.supply (maker :: line)) o.remaining.atoms := by
  have hstop : o.walk (maker :: line) = ⟨[], o, maker :: line⟩ := by
    simp only [walk]
    split
    · rfl
    · next price hprice =>
        rw [if_neg fun hgo => h ⟨price, hprice, hgo.2⟩]
  rw [hstop, supply_eq_zero hline h]
  exact ⟨by simp; omega, by dsimp only; omega⟩

/-- Who trades with the head of a line takes of it what it can, and the rest of the line supplies
what is wanted then. -/
theorem walk_takes_suited (hprice : maker.price = some price) (hpos : 0 < o.remaining)
    (hcross : o.Crosses price) (hq : o.remaining.smaller maker.remaining = q)
    (hleft : (o.traded q).remaining.atoms = o.remaining.atoms - q.atoms)
    (hline : ∀ x ∈ line, 0 ≤ x.remaining.atoms)
    (h : ((o.traded q).walk line).Takes (o.supply line) (o.traded q).remaining.atoms) :
    (o.walk (maker :: line)).Takes (o.supply (maker :: line)) o.remaining.atoms := by
  have hmin : q.atoms = min o.remaining.atoms maker.remaining.atoms := by
    rw [← hq, Decimal.atoms_smaller]
  have hsupply := supply_nonneg (o := o) hline
  obtain ⟨htaken, hremains⟩ := h
  rw [hleft] at htaken hremains
  rw [walk_cons hprice hpos hcross hq, supply_cons_of_meets ⟨price, hprice, hcross⟩]
  refine ⟨?_, ?_⟩
  · simp only [Walk.after, List.map_cons, exactSum_cons, htaken]
    omega
  · simp only [Walk.after, hremains]
    omega

/-- A walk down an exact line takes what it wants, or all there is. -/
theorem walk_takes (hp : p.slack = 0) (hline : line.Pairwise (Before o.side.opposite))
    (hfit : ∀ x ∈ line, x.OnGrid p) (hgrid : p.grid ∣ o.remaining.atoms)
    (hnonneg : 0 ≤ o.remaining.atoms) (hcap : o.remaining.atoms ≤ p.cap) :
    (o.walk line).Takes (o.supply line) o.remaining.atoms := by
  have hpos : ∀ x ∈ line, 0 ≤ x.remaining.atoms := fun x hx => Int.le_of_lt (hfit x hx).pos
  induction line generalizing o with
  | nil => exact ⟨by simp [walk]; omega, by simp [walk]; omega⟩
  | cons maker line ih =>
      by_cases hspent : o.remaining.atoms = 0
      · exact walk_takes_spent hpos hspent
      by_cases hmeets : o.Meets maker
      · obtain ⟨price, hprice, hcross⟩ := hmeets
        obtain ⟨hmaker, hrest⟩ := List.forall_mem_cons.mp hfit
        obtain ⟨hmakerPos, hrestPos⟩ := List.forall_mem_cons.mp hpos
        have hwants : 0 < o.remaining := Int.lt_iff_le_and_ne.mpr ⟨hnonneg, Ne.symm hspent⟩
        generalize hq : o.remaining.smaller maker.remaining = q
        have hmin : q.atoms = min o.remaining.atoms maker.remaining.atoms := by
          rw [← hq, Decimal.atoms_smaller]
        have hqgrid : p.grid ∣ q.atoms := by
          rw [← hq, Decimal.smaller]
          split
          · exact hmaker.grid
          · exact hgrid
        obtain ⟨hgrid', hleft⟩ := traded_exact hp hgrid hqgrid (by omega) (by omega) hcap
        -- What the order has traded does not change whom it may trade with.
        have hgoes : ((o.traded q).walk line).Takes (o.supply line) (o.traded q).remaining.atoms :=
          ih (o := o.traded q) (List.pairwise_cons.mp hline).2 hrest hgrid' (by omega) (by omega)
            hrestPos
        exact walk_takes_suited hprice hwants hcross hq hleft hrestPos hgoes
      · exact walk_takes_unsuited hline hnonneg hmeets

end Order

namespace Encounter

variable {p : Precision} {o : Order} {b : Book} {fills : List Fill} {e e' : Encounter}
  {moments : List (Encounter × Fill)}

theorem quantities_of_agrees {gills : List Fill} (h : List.Forall₂ Fill.Agrees fills gills) :
    fills.map Fill.quantity = gills.map Fill.quantity := by
  induction h with
  | nil => rfl
  | cons hfill _ ih => rw [List.map_cons, List.map_cons, hfill.quantity_eq, ih]

/-- Who is `filled` has nothing left, and who has nothing left is `filled`. -/
theorem Trades.filled_iff (h : Trades e moments e') (hs : e.book.Sound)
    (hlive : e.incoming.status.isLive = true) (hpos : 0 < e.incoming.remaining) :
    e'.incoming.status = .filled ↔ e'.incoming.remaining.SameValue 0 := by
  have hstatus := h.incoming_status hs
  cases h with
  | none =>
      constructor
      · intro hfilled
        rw [hfilled] at hlive
        cases hlive
      · intro hspent
        exact absurd hspent (Int.ne_of_gt hpos)
  | some _ _ =>
      rw [if_neg (List.cons_ne_nil _ _)] at hstatus
      rw [hstatus]
      split <;> simp [*]

/-- In an `Exact` book a matching takes what the order wants, or all there is that suits it. -/
theorem Walked.takes (h : Walked o b fills e') (hb : b.Exact p) (hp : p.slack = 0)
    (ho : o.OnGrid p) (hcap : o.remaining.atoms ≤ p.cap) :
    exactSum (fills.map Fill.quantity) =
        min o.remaining.atoms (o.supply (b.lines o.side.opposite)) ∧
      e'.incoming.remaining.atoms =
        o.remaining.atoms - min o.remaining.atoms (o.supply (b.lines o.side.opposite)) := by
  have hfit : ∀ x ∈ b.lines o.side.opposite, x.OnGrid p := by
    intro x hx
    exact hb.onGrid x (hb.sound.holds_of_mem hx)
  obtain ⟨htaken, hleft⟩ :=
    Order.walk_takes hp h.sorted hfit ho.grid (Int.le_of_lt ho.pos) hcap
  rw [quantities_of_agrees h.agrees, h.incoming_eq]
  exact ⟨htaken, hleft⟩

/-- Who wants something and is suited by the first in line trades. -/
theorem Walked.fills_ne_nil {maker : Order} {line : List Order} (h : Walked o b fills e')
    (hpos : 0 < o.remaining) (hline : b.lines o.side.opposite = maker :: line)
    (hmeets : o.Meets maker) : fills ≠ [] := by
  obtain ⟨price, hprice, hcross⟩ := hmeets
  have hagrees := h.agrees
  rw [hline, Order.walk_cons hprice hpos hcross rfl] at hagrees
  intro hnil
  rw [hnil] at hagrees
  cases hagrees

/-- What was counted for an order beforehand has told what its matching takes: as much of the count
as the order wants. If that is less than it wants, it is all that suits the order. -/
structure Foretold (count : Quantity) (o : Order) (b : Book) (fills : List Fill)
    (e' : Encounter) : Prop where
  sum_eq : exactSum (fills.map Fill.quantity) = min o.remaining.atoms count.atoms
  left_eq : e'.incoming.remaining.atoms =
    o.remaining.atoms - exactSum (fills.map Fill.quantity)
  filled_iff : o.remaining ≤ count ↔ e'.incoming.status = .filled
  whole : count < o.remaining →
    exactSum (fills.map Fill.quantity) = count.atoms ∧
      count.atoms = o.supply (b.lines o.side.opposite)

theorem Trades.foretold (h : Trades ⟨o, b⟩ moments e') (hstop : e'.Stops) (hb : b.Exact p)
    (hp : p.slack = 0) (ho : o.OnGrid p) (hcap : o.remaining.atoms ≤ p.cap) :
    Foretold (b.crossingLiquidity o.side o.price o.remaining) o b (moments.map Prod.snd) e' := by
  obtain ⟨htaken, hleft⟩ := (h.walked hb.sound hb.packed hstop).takes hb hp ho hcap
  obtain ⟨hle, heq⟩ := hb.crossingLiquidity hp o o.remaining
  have hfilled := h.filled_iff hb.sound ho.live ho.pos
  generalize b.crossingLiquidity o.side o.price o.remaining = count at hle heq ⊢
  have hwanted : 0 < o.remaining.atoms := ho.pos
  have hspent : e'.incoming.remaining.SameValue 0 ↔ e'.incoming.remaining.atoms = 0 := Iff.rfl
  -- Short of what is wanted the count is the `supply`; otherwise both are enough.
  rcases Int.lt_or_le count.atoms o.remaining.atoms with hshort | henough
  · have hall := heq hshort
    refine ⟨by omega, by omega, ?_, fun _ => ⟨by omega, hall⟩⟩
    rw [hfilled, hspent]
    exact iff_of_false (Int.not_le.mpr hshort) (by omega)
  · refine ⟨by omega, by omega, ?_, fun hlt => absurd henough (Int.not_le.mpr hlt)⟩
    rw [hfilled, hspent]
    exact iff_of_true henough (by omega)

end Encounter

/-- A book in order whose quantities are multiples of `10 ^ -k` and all together have few enough
digits. One is `10 ^ 28` atoms. -/
structure Book.WellFormed (k : Nat) (b : Book) : Prop where
  sound : b.Sound
  packed : b.Packed
  lively : b.Lively
  total_eq : ∀ side, ∀ level ∈ (b.ladder side).levels, level.total.atoms = left level.orders
  le : k ≤ 28
  multiple : ∀ side, ∀ x ∈ b.lines side, (tenTo (28 - k) : Int) ∣ x.remaining.atoms
  sum_lt : left b.lines.orders * tenTo k < coeffBound * tenTo 28

theorem Book.WellFormed.exact {k : Nat} {b : Book} (h : b.WellFormed k) :
    b.Exact (.exact k h.le) where
  sound := h.sound
  packed := h.packed
  total_eq := h.total_eq
  onGrid := by
    intro x hx
    obtain ⟨hlive, hpos⟩ := h.lively x hx
    exact ⟨hlive, hpos, h.multiple x.side x hx⟩
  left_le := by
    intro side
    have hnonneg : ∀ s, 0 ≤ left (b.lines s) := by
      intro s
      exact left_nonneg fun x hx => Int.le_of_lt (h.lively x (h.sound.holds_of_mem hx)).2
    have hpart : left (b.lines side) ≤ left b.lines.orders := by
      have hbids := hnonneg .buy
      have hasks := hnonneg .sell
      simp only [Lines.orders, left_append]
      cases side <;> omega
    refine Precision.le_cap_exact h.le (left_dvd (h.multiple side)) ?_
    exact Int.lt_of_le_of_lt (Int.mul_le_mul_of_nonneg_right hpart (Int.natCast_nonneg _)) h.sum_lt

/-- In a `WellFormed` book the liquidity that is counted for an order on its grid is what a matching
takes: `priceTime` comes to its end, fills as much of the count as the order wants, fills the order
as a whole just when the count is enough, and else takes all that suits it. -/
theorem liquidity_foretells_matching {k : Nat} {b : Book} (h : b.WellFormed k) {o : Order}
    (hlive : o.status.isLive = true) (hpos : 0 < o.remaining)
    (hmultiple : (tenTo (28 - k) : Int) ∣ o.remaining.atoms)
    (hlt : o.remaining.atoms * tenTo k < coeffBound * tenTo 28) :
    ∃ fills e', Encounter.priceTime ⟨o, b⟩ = .ok fills e' ∧
      Encounter.Foretold (b.crossingLiquidity o.side o.price o.remaining) o b fills e' := by
  have hexact := h.exact
  have hcap := Precision.le_cap_exact h.le hmultiple hlt
  obtain ⟨_, e', -, hrun⟩ := Encounter.priceTime_of_solvent (e := ⟨o, b⟩) h.sound hexact.solvent
    hlive (by decide +kernel)
  obtain ⟨moments, hm, hfills, hstop⟩ := Encounter.trades_of_priceTime hrun h.sound
  rw [hfills] at hrun
  exact ⟨_, e', hrun, hm.foretold hstop hexact rfl ⟨hlive, hpos, hmultiple⟩ hcap⟩

open Encounter (asked)

/-- A bid for seven at the number of the first two asks. -/
def bulk : Order := Book.lot 4 .buy 1 (.scaled 7 0) 6

/-- Seven are wanted. Five are offered at that price and one behind it, so five are counted. -/
theorem liquidity_foretells_matching_asked :
    ((Book.afterAll "X" asked).WellFormed 1 ∧
      (Book.afterAll "X" asked).crossingLiquidity .buy (some 1) (.scaled 7 0) = .scaled 5 0) ∧
      ∃ fills e', Encounter.priceTime ⟨bulk, Book.afterAll "X" asked⟩ = .ok fills e' ∧
        Encounter.Foretold ((Book.afterAll "X" asked).crossingLiquidity bulk.side bulk.price
          bulk.remaining) bulk (Book.afterAll "X" asked) fills e' := by
  have hgrown : (Book.afterAll "X" asked).Grown "X" 4 :=
    (((Book.Grown.empty.ask _ (by decide +kernel) (by decide +kernel)).ask _ (by decide +kernel)
      (by decide +kernel)).ask _ (by decide +kernel) (by decide +kernel)).ask _ (by decide +kernel)
      (by decide +kernel)
  have hformed : (Book.afterAll "X" asked).WellFormed 1 :=
    { sound := hgrown.reached.sound
      packed := hgrown.packed (by decide)
      lively := (hgrown.reached.roomy (by decide)).solvent.lively
      total_eq := by intro side; cases side <;> decide +kernel
      le := by decide
      multiple := by intro side; cases side <;> decide +kernel
      sum_lt := by decide +kernel }
  exact ⟨⟨hformed, by decide +kernel⟩, liquidity_foretells_matching hformed rfl (by decide +kernel)
    (by decide +kernel) (by decide +kernel)⟩

end Bourse
