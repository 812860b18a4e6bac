import Mathlib.Algebra.BigOperators.Ring.List
import Mathlib.Algebra.Order.BigOperators.Group.List
import Mathlib.Data.Finset.Max
import Bourse.Outcome
import Bourse.Proofs.Decimal.Products
import Bourse.Proofs.Decimal.Quotient
import Bourse.Proofs.Ledger.Basic

/-!
# Average prices

`averagePrice` is a quotient of two sums, and every step to it is rounded: the product of
each price and quantity, the sums of these and of the quantities, and the quotient itself.
The sums may be off in either direction, and costs that are small enough vanish, so the
quotient need not lie between the prices it is made from, and where the quantity is less
than one it need not fit.

The quotient of the sums as they are is beyond reproach, though: no decimal lies between
what is meant and what is answered (`Quotes`). So the average is an average whenever the
cost as it was added up lies between what the quantity would cost at the lowest and at the
highest price (`averaged_of_between`). If no product and no sum has been rounded
(`Unrounded`) that is the case, for then the cost is an average with the quantities as its
weights (`averaged_of_unrounded`); and nothing is rounded where prices and quantities have
few places and the whole cost has few digits (`FewPlaces.unrounded`).
-/

namespace Bourse

open Decimal

/-- The exact cost of some trades, in squares of `atoms`. -/
def exactCost (trades : List Trade) : Int :=
  (trades.map fun t => t.price.atoms * t.quantity.atoms).sum

@[simp] theorem exactCost_nil : exactCost [] = 0 := rfl

@[simp] theorem exactCost_cons (t : Trade) (trades : List Trade) :
    exactCost (t :: trades) = t.price.atoms * t.quantity.atoms + exactCost trades := List.sum_cons

/-- No cost and no sum on the way to the average is rounded: each is `Representable`. -/
structure Unrounded (trades : List Trade) : Prop where
  cost : ∀ t ∈ trades, RepresentableProduct (t.price.atoms * t.quantity.atoms)
  costs : ∀ n, RepresentableProduct (exactCost (trades.take n))
  quantities : ∀ n, Representable (exactSum ((trades.take n).map Trade.quantity))

/-! ## Sums without rounding -/

namespace Decimal

/-- A sum is exact if every sum on the way is `Representable`. -/
theorem foldlM_add_exact (acc : Decimal) {ds : List Decimal}
    (h : ∀ n, Representable (acc.atoms + exactSum (ds.take n))) :
    ∃ total, ds.foldlM add acc = .ok total ∧ total.atoms = acc.atoms + exactSum ds := by
  induction ds generalizing acc with
  | nil => exact ⟨acc, rfl, (Int.add_zero _).symm⟩
  | cons d ds ih =>
      have hfirst := h 1
      rw [List.take_succ_cons, List.take_zero, exactSum_cons, exactSum_nil, Int.add_zero] at hfirst
      obtain ⟨next, hnext⟩ := add?_isSome hfirst.bounds.1 hfirst.bounds.2
      have hatoms := add?_exact hnext hfirst
      obtain ⟨total, htotal, hsum⟩ := ih next fun n => by
        have hlater := h (n + 1)
        rwa [List.take_succ_cons, exactSum_cons, ← Int.add_assoc, ← hatoms] at hlater
      refine ⟨total, ?_, ?_⟩
      · rw [List.foldlM_cons, add_eq_ok.mpr hnext]
        exact htotal
      · rw [hsum, hatoms, exactSum_cons, Int.add_assoc]

theorem sum_exact (ds : List Decimal) (h : ∀ n, Representable (exactSum (ds.take n))) :
    ∃ total, Decimal.sum ds = .ok total ∧ total.atoms = exactSum ds := by
  obtain ⟨total, htotal, hatoms⟩ := foldlM_add_exact 0 fun n => by
    rw [atoms_zero, Int.zero_add]
    exact h n
  rw [atoms_zero, Int.zero_add] at hatoms
  exact ⟨total, htotal, hatoms⟩

end Decimal

/-- The costs of trades, each as `mul?` tells it. -/
def Costs (trades : List Trade) (costs : List Price) : Prop :=
  List.Forall₂ (fun t c => t.notional? = some c) trades costs

theorem foldlM_notional {trades : List Trade} {costs : List Price} (h : Costs trades costs)
    (acc : Price) :
    trades.foldlM (fun sum t => t.notional?.bind sum.add?) acc =
      (costs.foldlM add acc).toOption := by
  induction h generalizing acc with
  | nil => rfl
  | @cons t c trades costs hcost _ ih =>
      rw [List.foldlM_cons, List.foldlM_cons, hcost]
      unfold add
      cases hsum : acc.add? c with
      | none =>
          dsimp only [Option.bind]
          rw [hsum]
          rfl
      | some total =>
          dsimp only [Option.bind]
          rw [hsum]
          exact ih total

/-- A cost that is a `RepresentableProduct` is told exactly. -/
theorem costs_exact {trades : List Trade}
    (h : ∀ t ∈ trades, RepresentableProduct (t.price.atoms * t.quantity.atoms)) :
    ∃ costs, Costs trades costs ∧
      ∀ n, exactSum (costs.take n) * tenTo 28 = exactCost (trades.take n) := by
  induction trades with
  | nil => exact ⟨[], .nil, fun n => by rw [List.take_nil, List.take_nil]; rfl⟩
  | cons t trades ih =>
      obtain ⟨ht, htrades⟩ := List.forall_mem_cons.mp h
      obtain ⟨c, hc, hcost⟩ := mul?_exact ht
      obtain ⟨costs, hcosts, hsums⟩ := ih htrades
      refine ⟨c :: costs, .cons hc hcosts, fun n => ?_⟩
      cases n with
      | zero => rfl
      | succ n =>
          rw [List.take_succ_cons, List.take_succ_cons, exactSum_cons, exactCost_cons, Int.add_mul,
            hcost, hsums n]

/-! ## Few places -/

/-- Multiples of `10 ^ (-k)` that 96 bits can count are decimals. -/
theorem representable_of_dvd {x : Int} {k : Nat} (hk : k ≤ 28) (hdvd : (tenTo (28 - k) : Int) ∣ x)
    (hnonneg : 0 ≤ x) (hlt : x * tenTo k < coeffBound * tenTo 28) : Representable x := by
  have hpos : (0 : Int) < tenTo (28 - k) := Int.natCast_pos.mpr (tenTo_pos _)
  have hcap : x ≤ (((coeffBound - 1) * tenTo (28 - k) : Nat) : Int) :=
    Precision.le_cap_exact hk hdvd hlt
  obtain ⟨m, rfl⟩ := hdvd
  rw [Int.mul_comm, Int.natCast_mul] at hcap
  rw [Int.mul_comm] at hnonneg ⊢
  have hm : 0 ≤ m := Int.nonneg_of_mul_nonneg_left hnonneg hpos
  exact representable_mul hk (by omega) (Int.le_of_mul_le_mul_right hcap hpos)

/-- Prices of at most `j` places and quantities of at most `k`, where costs of `j + k` places are
decimals and all of them together have few enough digits. -/
structure FewPlaces (j k : Nat) (trades : List Trade) : Prop where
  le : j + k ≤ 28
  price : ∀ t ∈ trades, 0 ≤ t.price.atoms ∧ (tenTo (28 - j) : Int) ∣ t.price.atoms
  quantity : ∀ t ∈ trades, 0 ≤ t.quantity.atoms ∧ (tenTo (28 - k) : Int) ∣ t.quantity.atoms
  cost_lt : exactCost trades * tenTo (j + k) < coeffBound * (tenTo 28 * tenTo 28)
  quantity_lt : exactSum (trades.map Trade.quantity) * tenTo k < coeffBound * tenTo 28

instance (j k : Nat) (trades : List Trade) : Decidable (FewPlaces j k trades) :=
  decidable_of_iff
    (j + k ≤ 28 ∧
      (∀ t ∈ trades, 0 ≤ t.price.atoms ∧ (tenTo (28 - j) : Int) ∣ t.price.atoms) ∧
      (∀ t ∈ trades, 0 ≤ t.quantity.atoms ∧ (tenTo (28 - k) : Int) ∣ t.quantity.atoms) ∧
      exactCost trades * tenTo (j + k) < coeffBound * (tenTo 28 * tenTo 28) ∧
      exactSum (trades.map Trade.quantity) * tenTo k < coeffBound * tenTo 28)
    ⟨fun ⟨hle, hprice, hquantity, hcost, hsum⟩ => ⟨hle, hprice, hquantity, hcost, hsum⟩,
      fun h => ⟨h.le, h.price, h.quantity, h.cost_lt, h.quantity_lt⟩⟩

theorem FewPlaces.sublist {j k : Nat} {trades part : List Trade} (h : FewPlaces j k trades)
    (hpart : part.Sublist trades) : FewPlaces j k part := by
  have hten (n : Nat) : (0 : Int) ≤ tenTo n := Int.natCast_nonneg _
  refine ⟨h.le, fun t ht => h.price t (hpart.subset ht),
    fun t ht => h.quantity t (hpart.subset ht), ?_, ?_⟩
  · refine Int.lt_of_le_of_lt (Int.mul_le_mul_of_nonneg_right ?_ (hten _)) h.cost_lt
    refine (hpart.map _).sum_le_sum fun x hx => ?_
    obtain ⟨t, ht, rfl⟩ := List.mem_map.mp hx
    exact Int.mul_nonneg (h.price t ht).1 (h.quantity t ht).1
  · refine Int.lt_of_le_of_lt (Int.mul_le_mul_of_nonneg_right ?_ (hten _)) h.quantity_lt
    refine ((hpart.map _).map _).sum_le_sum fun x hx => ?_
    obtain ⟨q, hq, rfl⟩ := List.mem_map.mp hx
    obtain ⟨t, ht, rfl⟩ := List.mem_map.mp hq
    exact (h.quantity t ht).1

theorem FewPlaces.representable_quantity {j k : Nat} {trades : List Trade}
    (h : FewPlaces j k trades) : Representable (exactSum (trades.map Trade.quantity)) := by
  have hle := h.le
  refine representable_of_dvd (by omega) ?_ ?_ h.quantity_lt
  · refine List.dvd_sum fun x hx => ?_
    obtain ⟨q, hq, rfl⟩ := List.mem_map.mp hx
    obtain ⟨t, ht, rfl⟩ := List.mem_map.mp hq
    exact (h.quantity t ht).2
  · refine exactSum_nonneg fun q hq => ?_
    obtain ⟨t, ht, rfl⟩ := List.mem_map.mp hq
    exact (h.quantity t ht).1

theorem FewPlaces.representable_cost {j k : Nat} {trades : List Trade}
    (h : FewPlaces j k trades) : RepresentableProduct (exactCost trades) := by
  have hle := h.le
  have hten : (0 : Int) < tenTo 28 := Int.natCast_pos.mpr (tenTo_pos 28)
  have hunits : (tenTo (28 - j) : Int) * tenTo (28 - k) = tenTo (28 - (j + k)) * tenTo 28 := by
    rw [← Int.natCast_mul, ← Int.natCast_mul, ← tenTo_add, ← tenTo_add]
    congr 2
    omega
  have hdvd : (tenTo (28 - (j + k)) : Int) * tenTo 28 ∣ exactCost trades := by
    refine List.dvd_sum fun x hx => ?_
    obtain ⟨t, ht, rfl⟩ := List.mem_map.mp hx
    rw [← hunits]
    exact Int.mul_dvd_mul (h.price t ht).2 (h.quantity t ht).2
  have hnonneg : 0 ≤ exactCost trades := by
    refine List.sum_nonneg fun x hx => ?_
    obtain ⟨t, ht, rfl⟩ := List.mem_map.mp hx
    exact Int.mul_nonneg (h.price t ht).1 (h.quantity t ht).1
  have hlt := h.cost_lt
  obtain ⟨m, hm⟩ := hdvd
  have hcost : exactCost trades = tenTo (28 - (j + k)) * m * tenTo 28 := by
    rw [hm, Int.mul_right_comm]
  rw [hcost] at hnonneg hlt ⊢
  obtain ⟨d, hd⟩ := representable_of_dvd hle (Int.dvd_mul_right _ m)
    (Int.nonneg_of_mul_nonneg_left hnonneg hten) (by
      refine Int.lt_of_mul_lt_mul_right ?_ (Int.le_of_lt hten)
      rw [Int.mul_right_comm, Int.mul_assoc (coeffBound : Int)]
      exact hlt)
  exact ⟨d, by rw [hd]⟩

/-- Nothing is rounded where there are few places and few digits. -/
theorem FewPlaces.unrounded {j k : Nat} {trades : List Trade} (h : FewPlaces j k trades) :
    Unrounded trades where
  cost := by
    intro t ht
    have hone := (h.sublist (List.singleton_sublist.mpr ht)).representable_cost
    rwa [exactCost_cons, exactCost_nil, Int.add_zero] at hone
  costs := fun n => (h.sublist (List.take_sublist n _)).representable_cost
  quantities := fun n => (h.sublist (List.take_sublist n _)).representable_quantity

/-! ## A weighted mean -/

section Mean

variable {trades : List Trade}

theorem mul_exactSum_le (hpos : ∀ t ∈ trades, 0 < t.quantity) {price : Int}
    (h : ∀ t ∈ trades, price ≤ t.price.atoms) :
    price * exactSum (trades.map Trade.quantity) ≤ exactCost trades := by
  induction trades with
  | nil => exact Int.le_of_eq (Int.mul_zero _)
  | cons t trades ih =>
      obtain ⟨hq, hqs⟩ := List.forall_mem_cons.mp hpos
      obtain ⟨hp, hps⟩ := List.forall_mem_cons.mp h
      rw [List.map_cons, exactSum_cons, exactCost_cons, Int.mul_add]
      exact Int.add_le_add (Int.mul_le_mul_of_nonneg_right hp (Int.le_of_lt hq)) (ih hqs hps)

theorem exactCost_le (hpos : ∀ t ∈ trades, 0 < t.quantity) {price : Int}
    (h : ∀ t ∈ trades, t.price.atoms ≤ price) :
    exactCost trades ≤ price * exactSum (trades.map Trade.quantity) := by
  induction trades with
  | nil => exact Int.le_of_eq (Int.mul_zero _).symm
  | cons t trades ih =>
      obtain ⟨hq, hqs⟩ := List.forall_mem_cons.mp hpos
      obtain ⟨hp, hps⟩ := List.forall_mem_cons.mp h
      rw [List.map_cons, exactSum_cons, exactCost_cons, Int.mul_add]
      exact Int.add_le_add (Int.mul_le_mul_of_nonneg_right hp (Int.le_of_lt hq)) (ih hqs hps)

/-- Some trade has the lowest price and some trade the highest. -/
theorem exists_lowest_highest (h : trades ≠ []) :
    (∃ t ∈ trades, ∀ u ∈ trades, t.price.atoms ≤ u.price.atoms) ∧
      ∃ t ∈ trades, ∀ u ∈ trades, u.price.atoms ≤ t.price.atoms := by
  have hsome : trades.toFinset.Nonempty := List.toFinset_nonempty_iff trades |>.mpr h
  obtain ⟨low, hlow, hleast⟩ := trades.toFinset.exists_min_image (fun t => t.price.atoms) hsome
  obtain ⟨high, hhigh, hmost⟩ := trades.toFinset.exists_max_image (fun t => t.price.atoms) hsome
  exact ⟨⟨low, List.mem_toFinset.mp hlow, fun u hu => hleast u (List.mem_toFinset.mpr hu)⟩,
    ⟨high, List.mem_toFinset.mp hhigh, fun u hu => hmost u (List.mem_toFinset.mpr hu)⟩⟩

end Mean

/-! ## The quotient -/

namespace OrderResult

variable {r : OrderResult} {filled : Quantity}

/-- What the trades add up to can be told, and is nothing only without trades. -/
structure Tallied (r : OrderResult) (filled : Quantity) : Prop where
  filled_eq : r.filled = .ok filled
  pos_iff : 0 < filled ↔ r.trades ≠ []
  nonneg : 0 ≤ filled
  trade_pos : ∀ t ∈ r.trades, 0 < t.quantity

/-- `averagePrice` is one: it can be asked for, and if there is an answer there are trades, and the
answer lies between the lowest and the highest of their prices. -/
def Averaged (r : OrderResult) : Prop :=
  ∃ answer, r.averagePrice = .ok answer ∧
    ∀ p, answer = some p →
      r.trades ≠ [] ∧ (∃ t ∈ r.trades, t.price ≤ p) ∧ ∃ t ∈ r.trades, p ≤ t.price

theorem averagePrice_eq (h : r.Tallied filled) :
    r.averagePrice =
      if r.trades = [] then .ok none
      else
        match r.notional? with
        | none => .ok none
        | some cost => (orFault (cost.div filled)).map some := by
  have hzero : filled.SameValue 0 ↔ r.trades = [] := by
    have hpos := h.pos_iff
    have hnonneg : 0 ≤ filled.atoms := h.nonneg
    rw [← not_iff_not, ← ne_eq, ← hpos]
    change ¬ filled.atoms = 0 ↔ 0 < filled.atoms
    omega
  unfold averagePrice
  rw [h.filled_eq]
  dsimp only [bind, Except.bind]
  by_cases hnone : r.trades = []
  · rw [if_pos hnone, if_pos (hzero.mpr hnone)]
    rfl
  · rw [if_neg hnone, if_neg fun hz => hnone (hzero.mp hz)]
    cases r.notional? with
    | none => rfl
    | some cost =>
        dsimp only
        cases orFault (cost.div filled) <;> rfl

/-- How `averagePrice` comes about, from the sums as they are. -/
structure Quotes (r : OrderResult) (filled : Quantity) : Prop where
  none_iff : r.averagePrice = .ok none ↔ r.trades = [] ∨ r.notional? = none
  next : ∀ p, r.averagePrice = .ok (some p) →
    r.trades ≠ [] ∧ ∃ cost, r.notional? = some cost ∧
      NextTo (cost.atoms * tenTo 28) filled.atoms p
  error_iff : ∀ f, r.averagePrice = .error f ↔
    f = .arithmetic .divisionOverflow ∧ r.trades ≠ [] ∧ ∃ cost, r.notional? = some cost ∧
      twiceTooLarge * filled.atoms ≤ 2 * (cost.atoms.natAbs : Int)

/-- Without trades, and where the cost does not fit, there is no average price. -/
theorem quotes_of_none (heq : r.averagePrice = .ok none)
    (h : r.trades = [] ∨ r.notional? = none) : r.Quotes filled where
  none_iff := iff_of_true heq h
  next := by
    intro p hp
    rw [heq] at hp
    cases hp
  error_iff := by
    intro f
    rw [heq]
    refine iff_of_false nofun ?_
    rintro ⟨-, hsome, cost, hcost, -⟩
    rcases h with hnone | hnone
    · exact hsome hnone
    · rw [hnone] at hcost
      cases hcost

section Cost

variable {cost : Price}

theorem quotes_of_some {p : Price} (heq : r.averagePrice = .ok (some p)) (htrades : r.trades ≠ [])
    (hcost : r.notional? = some cost) (hnext : NextTo (cost.atoms * tenTo 28) filled.atoms p)
    (hless : 2 * (cost.atoms.natAbs : Int) < twiceTooLarge * filled.atoms) :
    r.Quotes filled where
  none_iff := by
    rw [heq, hcost]
    exact iff_of_false nofun fun hnone => hnone.elim htrades nofun
  next := by
    intro p' hp'
    rw [heq] at hp'
    cases hp'
    exact ⟨htrades, cost, hcost, hnext⟩
  error_iff := by
    intro f
    rw [heq, hcost]
    refine iff_of_false nofun ?_
    rintro ⟨-, -, cost', hcost', hlarge⟩
    cases hcost'
    exact Int.not_lt.mpr hlarge hless

theorem quotes_of_error (heq : r.averagePrice = .error (.arithmetic .divisionOverflow))
    (htrades : r.trades ≠ []) (hcost : r.notional? = some cost)
    (hlarge : twiceTooLarge * filled.atoms ≤ 2 * (cost.atoms.natAbs : Int)) :
    r.Quotes filled where
  none_iff := by
    rw [heq, hcost]
    exact iff_of_false nofun fun hnone => hnone.elim htrades nofun
  next := by
    intro p hp
    rw [heq] at hp
    cases hp
  error_iff := by
    intro f
    rw [heq]
    constructor
    · intro hf
      cases hf
      exact ⟨rfl, htrades, cost, hcost, hlarge⟩
    · rintro ⟨rfl, -⟩
      rfl

end Cost

theorem Tallied.quotes (h : r.Tallied filled) : r.Quotes filled := by
  have heq := averagePrice_eq h
  by_cases htrades : r.trades = []
  · rw [if_pos htrades] at heq
    exact quotes_of_none heq (Or.inl htrades)
  · rw [if_neg htrades] at heq
    cases hcost : r.notional? with
    | none =>
        rw [hcost] at heq
        exact quotes_of_none heq (Or.inr hcost)
    | some cost =>
        rw [hcost] at heq
        dsimp only at heq
        have hsettles := div_settles cost (h.pos_iff.mpr htrades)
        cases hdiv : cost.div filled with
        | ok p =>
            rw [hdiv] at hsettles heq
            exact quotes_of_some heq htrades hcost hsettles.1 hsettles.2
        | error e =>
            rw [hdiv] at hsettles heq
            obtain ⟨rfl, hlarge⟩ := hsettles
            exact quotes_of_error heq htrades hcost hlarge

/-- Where at least one is filled the quotient is no larger than the cost, and it fits. -/
theorem Quotes.answers (h : r.Quotes filled) (hone : 1 ≤ filled) :
    ∃ answer, r.averagePrice = .ok answer := by
  cases hprice : r.averagePrice with
  | ok answer => exact ⟨answer, rfl⟩
  | error f =>
      obtain ⟨-, -, cost, -, hlarge⟩ := (h.error_iff f).mp hprice
      have hone : (tenTo 28 : Int) ≤ filled.atoms := hone
      have hcost := (representable_atoms cost).bounds
      have hgreatest : 2 * (greatestAtoms : Int) < twiceTooLarge * tenTo 28 := by decide +kernel
      have hfilled : (twiceTooLarge : Int) * tenTo 28 ≤ twiceTooLarge * filled.atoms :=
        Int.mul_le_mul_of_nonneg_left hone (Int.natCast_nonneg _)
      omega

/-- The cost as it was added up is no less than the quantity would cost at some trade's price, and
no more than it would cost at another's. -/
def Between (r : OrderResult) (filled : Quantity) : Prop :=
  ∀ cost, r.notional? = some cost →
    (∃ t ∈ r.trades, t.price.atoms * filled.atoms ≤ cost.atoms * tenTo 28) ∧
      ∃ t ∈ r.trades, cost.atoms * tenTo 28 ≤ t.price.atoms * filled.atoms

/-- A quotient between two decimals is not too large. -/
theorem not_tooLarge {cost low high : Decimal} (hpos : 0 < filled.atoms)
    (hlow : low.atoms * filled.atoms ≤ cost.atoms * tenTo 28)
    (hhigh : cost.atoms * tenTo 28 ≤ high.atoms * filled.atoms) :
    2 * (cost.atoms.natAbs : Int) < twiceTooLarge * filled.atoms := by
  have hten : (0 : Int) < tenTo 28 := Int.natCast_pos.mpr (tenTo_pos 28)
  have hnonneg := Int.le_of_lt hpos
  have hgreatest : (greatestAtoms : Int) * filled.atoms =
      ((coeffBound - 1 : Nat) : Int) * filled.atoms * tenTo 28 := by
    rw [greatestAtoms, Int.natCast_mul, Int.mul_right_comm]
  have hup : cost.atoms ≤ ((coeffBound - 1 : Nat) : Int) * filled.atoms := by
    refine Int.le_of_mul_le_mul_right ?_ hten
    rw [← hgreatest]
    exact Int.le_trans hhigh
      (Int.mul_le_mul_of_nonneg_right (representable_atoms high).bounds.2 hnonneg)
  have hdown : -(((coeffBound - 1 : Nat) : Int) * filled.atoms) ≤ cost.atoms := by
    refine Int.le_of_mul_le_mul_right ?_ hten
    rw [Int.neg_mul, ← hgreatest, ← Int.neg_mul]
    exact Int.le_trans
      (Int.mul_le_mul_of_nonneg_right (representable_atoms low).bounds.1 hnonneg) hlow
  have htwice : (twiceTooLarge : Int) * filled.atoms =
      2 * (((coeffBound - 1 : Nat) : Int) * filled.atoms) + filled.atoms := by
    rw [show (twiceTooLarge : Int) = 2 * ((coeffBound - 1 : Nat) : Int) + 1 by decide +kernel,
      Int.add_mul, Int.one_mul, Int.mul_assoc]
  omega

theorem Tallied.averaged_of_between (h : r.Tallied filled)
    (hbetween : r.trades ≠ [] → r.Between filled) : r.Averaged := by
  have hquotes := h.quotes
  cases hprice : r.averagePrice with
  | error f =>
      obtain ⟨-, htrades, cost, hcost, hlarge⟩ := (hquotes.error_iff f).mp hprice
      obtain ⟨⟨low, -, hlow⟩, high, -, hhigh⟩ := hbetween htrades cost hcost
      exact absurd hlarge
        (Int.not_le.mpr (not_tooLarge (h.pos_iff.mpr htrades) hlow hhigh))
  | ok answer =>
      refine ⟨answer, hprice, ?_⟩
      rintro p rfl
      obtain ⟨htrades, cost, hcost, hnext⟩ := hquotes.next p hprice
      obtain ⟨⟨low, hlow, hle⟩, high, hhigh, hge⟩ := hbetween htrades cost hcost
      exact ⟨htrades, ⟨low, hlow, hnext.le_of_le low.price hle⟩,
        ⟨high, hhigh, hnext.ge_of_ge high.price hge⟩⟩

/-- An `Unrounded` cost is told exactly by `notional?`. -/
theorem notional?_exact (h : Unrounded r.trades) :
    ∃ cost, r.notional? = some cost ∧ cost.atoms * tenTo 28 = exactCost r.trades := by
  obtain ⟨costs, hcosts, hsums⟩ := costs_exact h.cost
  have hsteps (n : Nat) : Representable (exactSum (costs.take n)) := by
    obtain ⟨d, hd⟩ := h.costs n
    rw [← hsums n] at hd
    exact ⟨d, Int.eq_of_mul_eq_mul_right (Int.natCast_ne_zero.mpr (Nat.ne_of_gt (tenTo_pos 28))) hd⟩
  obtain ⟨cost, hcost, hatoms⟩ := sum_exact costs hsteps
  refine ⟨cost, ?_, ?_⟩
  · rw [notional?, foldlM_notional hcosts]
    exact congrArg Except.toOption hcost
  · have hlength : r.trades.length = costs.length := List.Forall₂.length_eq hcosts
    have hall := hsums r.trades.length
    rw [List.take_length, hlength, List.take_length, ← hatoms] at hall
    exact hall

/-- What nothing has been rounded on the way to is an average. -/
theorem Tallied.averaged_of_unrounded (h : r.Tallied filled) (hexact : Unrounded r.trades) :
    r.Averaged := by
  refine h.averaged_of_between fun htrades cost hcost => ?_
  obtain ⟨cost', hcost', hmeant⟩ := notional?_exact hexact
  rw [hcost] at hcost'
  cases hcost'
  have hsum : filled.atoms = exactSum (r.trades.map Trade.quantity) := by
    obtain ⟨total, htotal, hatoms⟩ := sum_exact (r.trades.map Trade.quantity) fun n => by
      rw [← List.map_take]
      exact hexact.quantities n
    have hfilled := orFault_eq_ok.mp h.filled_eq
    rw [htotal] at hfilled
    cases hfilled
    exact hatoms
  obtain ⟨⟨low, hlow, hleast⟩, high, hhigh, hmost⟩ := exists_lowest_highest htrades
  rw [hsum, hmeant]
  exact ⟨⟨low, hlow, mul_exactSum_le h.trade_pos hleast⟩,
    high, hhigh, exactCost_le h.trade_pos hmost⟩

end OrderResult

end Bourse
