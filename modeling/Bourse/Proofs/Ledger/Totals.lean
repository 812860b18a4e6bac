import Bourse.Proofs.Ledger.Drawn

/-!
# Adding up what has been drawn

What an order has traded is added up with decimals, one trade after another, and each
addition rounds; so does each subtraction that keeps what is left of the order. An order
can trade any number of times, as its remainder does not move under trades that are too
small for its last place. Yet the sum stays in range, and here is why.

Decimals from `plateau` on are spaced by one in the eighth place (`dvd_of_plateau_le`),
which is a hundred times what the remainder of an order can be off by. There a trade of
less than half a step does not move the sum, and a trade of at least half a step moves it
by at most twice its size, while it takes nearly all its size from what is left of the
order. So the sum can climb from the plateau by no more than three times what the order
asked for (`climb_le`), and up to the plateau there is room. `Totalled` is the invariant
that `Totalled.draw` carries from trade to trade.
-/

namespace Bourse

open Decimal

/-- Decimals from here on have at most eight places. -/
def plateau : Decimal := .scaled 80000000000000000000 0

/-- From `plateau` on, decimals are multiples of one in the eighth place. -/
theorem dvd_of_plateau_le {d : Decimal} (h : plateau ≤ d) : (tenTo 20 : Int) ∣ d.atoms := by
  have hscale : d.scale ≤ 8 := by
    refine Nat.not_lt.mp fun hmany => ?_
    have hcoeff : d.coeff ≤ coeffBound - 1 := Nat.le_sub_one_of_lt d.coeff_lt
    have hsize : magnitude d.coeff d.scale ≤ (coeffBound - 1) * tenTo 19 :=
      Nat.mul_le_mul hcoeff (tenTo_le_tenTo (by omega))
    have hplateau : (coeffBound - 1) * tenTo 19 < plateau.atoms.natAbs := by decide +kernel
    have hle : plateau.atoms ≤ d.atoms := h
    have hpos : 0 ≤ plateau.atoms := by decide +kernel
    rw [← natAbs_atoms] at hsize
    omega
  have hsplit : tenTo (28 - d.scale) = tenTo 20 * tenTo (8 - d.scale) := by
    rw [← tenTo_add]
    congr 1
    omega
  rw [atoms, hsplit, Int.natCast_mul, Int.mul_left_comm]
  exact Int.dvd_mul_right ..

/-- On the plateau a sum climbs by no more than three times what the trade takes from an order. -/
theorem climb_le {top top' left left' q : Decimal} (htop : plateau ≤ top)
    (hsize : top.atoms + q.atoms ≤ tenTo 28 * tenTo 20) (hadd : top.add? q = some top')
    (hpos : 0 < q) (hle : q ≤ left) (hleft : left ≤ maxOrderQuantity)
    (hsub : left.sub q = .ok left') :
    top ≤ top' ∧ top'.atoms + 3 * left'.atoms ≤ top.atoms + 3 * left.atoms := by
  have hpos : 0 < q.atoms := hpos
  have hle : q.atoms ≤ left.atoms := hle
  have hleft : left.atoms ≤ (tenTo 28 * tenTo 18 : Nat) := hleft
  have hbase : 0 ≤ plateau.atoms := by decide +kernel
  have htop' : plateau.atoms ≤ top.atoms := htop
  have hmono : top.atoms ≤ top'.atoms := le_add? hadd (by omega)
  have hrest : left'.atoms ≤ left.atoms := sub_le hsub (Int.le_of_lt hpos)
  have hgrid := Int.dvd_sub (dvd_of_plateau_le (Int.le_trans htop hmono)) (dvd_of_plateau_le htop)
  have hsum : (top.atoms + q.atoms).natAbs ≤ tenTo 28 * tenTo 20 := by omega
  have hstep := (add?_fine (t := 8) hadd (by decide) hsum).1
  have hdiff : (left.atoms - q.atoms).natAbs ≤ tenTo 28 * tenTo 18 := by omega
  have htaken := (sub_fine (t := 10) hsub (by decide) hdiff).1
  change 2 * top'.atoms ≤ 2 * (top.atoms + q.atoms) + (tenTo 20 : Nat) at hstep
  change 2 * left'.atoms ≤ 2 * (left.atoms - q.atoms) + (tenTo 18 : Nat) at htaken
  refine ⟨hmono, ?_⟩
  -- A trade of less than half a step does not move the sum, for that can only move by a step; any
  -- other is much larger than what may be rounded off the order.
  by_cases hsmall : 2 * q.atoms < (tenTo 20 : Nat)
  · have hnone : top'.atoms - top.atoms = 0 :=
      (Int.emod_eq_of_lt (by omega) (by omega)).symm.trans (Int.emod_eq_zero_of_dvd hgrid)
    omega
  · have hratio : 3 * (tenTo 18 : Int) ≤ (tenTo 20 : Nat) := by decide
    omega

/-- The sum of what has been drawn so far is below a number that has climbed from the plateau by no
more than three times what has been taken. -/
structure Totalled (asked left total : Quantity) : Prop where
  nonneg : 0 ≤ total
  below : ∃ top, plateau ≤ top ∧ total ≤ top ∧
    top.atoms + 3 * left.atoms ≤ plateau.atoms + 3 * asked.atoms

/-- The next trade can be added, and the sum stays `Totalled`. -/
theorem Totalled.draw {asked left left' total q : Quantity} (h : Totalled asked left total)
    (hnonneg : 0 ≤ asked) (hasked : asked ≤ maxOrderQuantity) (hleft : left ≤ asked)
    (hpos : 0 < q) (hle : q ≤ left) (hsub : left.sub q = .ok left') :
    ∃ total', total.add q = .ok total' ∧ 0 < total' ∧ Totalled asked left' total' := by
  obtain ⟨top, htop, hbelow, hclimbed⟩ := h.below
  have htotal : 0 ≤ total.atoms := h.nonneg
  have hbelow : total.atoms ≤ top.atoms := hbelow
  have hasked₀ : 0 ≤ asked.atoms := hnonneg
  have hasked₁ : asked.atoms ≤ (tenTo 28 * tenTo 18 : Nat) := hasked
  have hleft₁ : left.atoms ≤ asked.atoms := hleft
  have hq₀ : 0 < q.atoms := hpos
  have hq₁ : q.atoms ≤ left.atoms := hle
  have hroom : plateau.atoms + 4 * (tenTo 28 * tenTo 18 : Nat) ≤ (tenTo 28 * tenTo 20 : Nat) := by
    decide +kernel
  have hrange : (tenTo 28 * tenTo 20 : Nat) ≤ (greatestAtoms : Int) := by decide +kernel
  have hsize : top.atoms + q.atoms ≤ tenTo 28 * tenTo 20 := by omega
  obtain ⟨total', htotal'⟩ := add?_isSome (a := total) (b := q) (by omega) (by omega)
  obtain ⟨top', htop'⟩ := add?_isSome (a := top) (b := q) (by omega) (by omega)
  obtain ⟨hmono, hclimb⟩ := climb_le htop hsize htop' hpos hle (Int.le_trans hleft hasked) hsub
  have hgrown : q.atoms ≤ total'.atoms := le_add? htotal' (by omega)
  have hpos' : 0 < total'.atoms := Int.lt_of_lt_of_le hq₀ hgrown
  refine ⟨total', add_eq_ok.mpr htotal', hpos', Int.le_of_lt hpos', top', Int.le_trans htop hmono,
    add?_mono htotal' htop' (by omega), by omega⟩

theorem Decimal.sum_concat (l : List Decimal) (d : Decimal) :
    Decimal.sum (l ++ [d]) = (Decimal.sum l).bind fun total => total.add d := by
  unfold Decimal.sum
  rw [List.foldlM_append]
  cases l.foldlM add 0 with
  | error e => rfl
  | ok total =>
      change List.foldlM add total [d] = total.add d
      rw [List.foldlM_cons]
      cases total.add d <;> rfl

/-- What `Draws` takes can be added up, and is nothing only where nothing has been drawn. -/
theorem Draws.totalled {asked left : Quantity} {trades : List Quantity} {gain : Int}
    (h : Draws asked trades left gain) (hnonneg : 0 ≤ asked) (hmost : asked ≤ maxOrderQuantity) :
    ∃ total, Decimal.sum trades.reverse = .ok total ∧ Totalled asked left total ∧
      (0 < total ↔ trades ≠ []) := by
  induction h with
  | none =>
      refine ⟨0, rfl, ⟨Int.le_refl _, plateau, Int.le_refl _, by decide +kernel, Int.le_refl _⟩, ?_⟩
      exact iff_of_false (by decide) fun hne => hne rfl
  | @some trades left left' q gain h hpos hle hsub ih =>
      obtain ⟨total, hsum, htotalled, -⟩ := ih
      obtain ⟨total', hadd, hpos', htotalled'⟩ :=
        htotalled.draw hnonneg hmost h.left_le hpos hle hsub
      refine ⟨total', ?_, htotalled', iff_of_true hpos' (List.cons_ne_nil _ _)⟩
      rw [List.reverse_cons, sum_concat, hsum]
      exact hadd

end Bourse
