import Bourse.Proofs.Book.Balance
import Bourse.Proofs.Book.Lines
import Bourse.Proofs.Book.Solvent

/-!
# What the count of liquidity counts

Before an order that must trade as a whole is matched, `crossingLiquidity` adds the sums
of the levels across up, best first, until there is enough or a level does not suit the
order. A level that does not suit the order is followed by none that does
(`Meets.of_before`), so nothing is missed where counting stops for that reason.

Sums may be rounded. In an `Exact` book they are not: every sum of a level is right, and
all quantities lie on one grid and within its range. There the count is the `supply`, what
is left of the orders that would suit, unless it has stopped before because there was
enough.
-/

namespace Bourse

open Decimal (Precision halfUnit greatestAtoms)

namespace Order

/-- The other order stands at a price at which this one may trade. -/
def Meets (o x : Order) : Prop := ∃ p ∈ x.price, o.Crosses p

instance (o x : Order) : Decidable (o.Meets x) := by
  unfold Meets
  infer_instance

/-- What is left, all in all, of the orders of a line that an order `Meets`. -/
def supply (o : Order) (line : List Order) : Int := left (line.filter fun x => o.Meets x)

variable {o x y : Order} {line line' : List Order}

/-- An order that `Meets` another meets all that stand before it. -/
theorem Meets.of_before (h : o.Meets y) (hb : Before o.side.opposite x y) : o.Meets x := by
  obtain ⟨p, hp, hcross⟩ := h
  obtain ⟨q, q', hq, hq', hrank⟩ := hb
  rw [hq'] at hp
  cases hp
  exact ⟨q, hq, hcross.of_rank_le (by omega)⟩

@[simp] theorem supply_nil (o : Order) : o.supply [] = 0 := rfl

@[simp] theorem supply_append (o : Order) (line line' : List Order) :
    o.supply (line ++ line') = o.supply line + o.supply line' := by
  simp only [supply, List.filter_append, left_append]

theorem supply_cons_of_meets (h : o.Meets x) (line : List Order) :
    o.supply (x :: line) = x.remaining.atoms + o.supply line := by
  simp [supply, h]

theorem supply_of_meets (h : ∀ x ∈ line, o.Meets x) : o.supply line = left line := by
  simp only [supply]
  rw [List.filter_eq_self.mpr fun x hx => decide_eq_true (h x hx)]

theorem supply_of_not_meets (h : ∀ x ∈ line, ¬ o.Meets x) : o.supply line = 0 := by
  simp only [supply]
  rw [List.filter_eq_nil_iff.mpr fun x hx => by simp [h x hx]]
  exact left_nil

/-- Where the head of a line does not suit, nothing does. -/
theorem supply_eq_zero (hline : (x :: line).Pairwise (Before o.side.opposite)) (h : ¬ o.Meets x) :
    o.supply (x :: line) = 0 := by
  refine supply_of_not_meets fun y hy => ?_
  rcases List.mem_cons.mp hy with rfl | hy
  · exact h
  · intro hmeets
    exact h (hmeets.of_before ((List.pairwise_cons.mp hline).1 y hy))

theorem supply_nonneg (h : ∀ x ∈ line, 0 ≤ x.remaining.atoms) : 0 ≤ o.supply line :=
  left_nonneg fun x hx => h x (List.mem_filter.mp hx).1

end Order

theorem left_dvd {g : Int} {orders : List Order} (h : ∀ o ∈ orders, g ∣ o.remaining.atoms) :
    g ∣ left orders := by
  induction orders with
  | nil => exact Int.dvd_zero g
  | cons o rest ih =>
      rw [left_cons]
      exact Int.dvd_add (h o List.mem_cons_self) (ih fun x hx => h x (List.mem_cons_of_mem _ hx))

/-- The `stake` of some orders is what is left of them and half a unit for each. -/
theorem stake_eq (orders : List Order) :
    stake orders = left orders + (halfUnit * orders.length : Nat) := by
  induction orders with
  | nil => rfl
  | cons o rest ih =>
      rw [stake_cons, left_cons, ih, List.length_cons, Nat.mul_succ]
      omega

/-- The order is one that a `Precision` can work with, as far as what is left of it goes. -/
structure Order.OnGrid (p : Precision) (o : Order) : Prop where
  live : o.status.isLive = true
  pos : 0 < o.remaining
  grid : p.grid ∣ o.remaining.atoms

namespace Book

/-- Levels in line, each with the sum of its orders, which lie on the grid. -/
structure ExactLevels (p : Precision) (side : Side) (levels : List Level) : Prop where
  inLine : Ladder.InLine side levels
  sound : ∀ level ∈ levels, level.Sound side
  total_eq : ∀ level ∈ levels, level.total.atoms = left level.orders
  onGrid : ∀ level ∈ levels, ∀ x ∈ level.orders, x.OnGrid p

/-- A count comes to the whole `supply`, unless it has stopped before because a cap is met. -/
structure Counts (cap : Quantity) (supply : Int) (count : Quantity) : Prop where
  le : count.atoms ≤ supply
  eq_of_lt : count < cap → count.atoms = supply

/-- A book whose sums are right and in range: either side has `ExactLevels`. -/
structure Exact (p : Precision) (b : Book) : Prop where
  sound : b.Sound
  packed : b.Packed
  total_eq : ∀ side, ∀ level ∈ (b.ladder side).levels, level.total.atoms = left level.orders
  onGrid : ∀ x, b.Holds x → x.OnGrid p
  left_le : ∀ side, left (b.lines side) ≤ p.cap

section Levels

variable {p : Precision} {o : Order} {level : Level} {levels : List Level}
  {cap available : Quantity}

namespace ExactLevels

theorem tail (h : ExactLevels p o.side.opposite (level :: levels)) :
    ExactLevels p o.side.opposite levels where
  inLine := (List.pairwise_cons.mp h.inLine).2
  sound l hl := h.sound l (List.mem_cons_of_mem _ hl)
  total_eq l hl := h.total_eq l (List.mem_cons_of_mem _ hl)
  onGrid l hl := h.onGrid l (List.mem_cons_of_mem _ hl)

theorem nonneg (h : ExactLevels p o.side.opposite levels) :
    ∀ x ∈ levels.flatMap Level.orders, 0 ≤ x.remaining.atoms := by
  intro x hx
  obtain ⟨l, hl, hx⟩ := List.mem_flatMap.mp hx
  exact Int.le_of_lt (h.onGrid l hl x hx).pos

/-- Whether an order `Meets` one of a level is a matter of the level. -/
theorem meets_iff (h : ExactLevels p o.side.opposite levels) (hl : level ∈ levels) {x : Order}
    (hx : x ∈ level.orders) : o.Meets x ↔ o.Crosses level.price := by
  obtain ⟨q, hq, hv⟩ := ((h.sound level hl).placed x hx).price_eq
  constructor
  · intro hmeets
    obtain ⟨q', hq', hcross⟩ := hmeets
    rw [hq] at hq'
    cases hq'
    exact hcross.congr hv
  · intro hcross
    exact ⟨q, hq, hcross.congr hv.symm⟩

theorem supply_cons (h : ExactLevels p o.side.opposite (level :: levels))
    (hcross : o.Crosses level.price) :
    o.supply ((level :: levels).flatMap Level.orders) =
      level.total.atoms + o.supply (levels.flatMap Level.orders) := by
  rw [List.flatMap_cons, Order.supply_append, h.total_eq level List.mem_cons_self,
    Order.supply_of_meets fun x hx => (h.meets_iff List.mem_cons_self hx).mpr hcross]

theorem supply_eq_zero (h : ExactLevels p o.side.opposite (level :: levels))
    (hcross : ¬ o.Crosses level.price) :
    o.supply ((level :: levels).flatMap Level.orders) = 0 := by
  refine Order.supply_of_not_meets fun x hx => ?_
  intro hmeets
  obtain ⟨l, hl, hx⟩ := List.mem_flatMap.mp hx
  have hsuits := (h.meets_iff hl hx).mp hmeets
  rcases List.mem_cons.mp hl with rfl | hl
  · exact hcross hsuits
  · have hlt := (List.pairwise_cons.mp h.inLine).1 l hl
    exact hcross (hsuits.of_rank_le (Int.le_of_lt hlt))

theorem left_cons (h : ExactLevels p o.side.opposite (level :: levels)) :
    left ((level :: levels).flatMap Level.orders) =
      level.total.atoms + left (levels.flatMap Level.orders) := by
  rw [List.flatMap_cons, left_append, h.total_eq level List.mem_cons_self]

theorem grid_total (h : ExactLevels p o.side.opposite levels) (hl : level ∈ levels) :
    p.grid ∣ level.total.atoms := by
  rw [h.total_eq level hl]
  exact left_dvd fun x hx => (h.onGrid level hl x hx).grid

theorem total_nonneg (h : ExactLevels p o.side.opposite levels) (hl : level ∈ levels) :
    0 ≤ level.total.atoms := by
  rw [h.total_eq level hl]
  exact left_nonneg fun x hx => Int.le_of_lt (h.onGrid level hl x hx).pos

/-- `reachable` comes to what would suit, or stops because there is enough. -/
theorem reachable (h : ExactLevels p o.side.opposite levels) (hp : p.slack = 0)
    (hgrid : p.grid ∣ available.atoms) (hnonneg : 0 ≤ available.atoms)
    (hcap : available.atoms + left (levels.flatMap Level.orders) ≤ p.cap) :
    Counts cap (available.atoms + o.supply (levels.flatMap Level.orders))
      (Book.reachable o.side o.price cap available levels) := by
  induction levels generalizing available with
  | nil =>
      simp only [List.flatMap_nil, Order.supply_nil, Int.add_zero]
      exact ⟨Int.le_refl _, fun _ => rfl⟩
  | cons level levels ih =>
      simp only [Book.reachable]
      by_cases hcross : o.Crosses level.price
      · have htotal := h.total_nonneg List.mem_cons_self
        have hrest := Order.supply_nonneg (o := o) h.tail.nonneg
        have hleft := left_nonneg h.tail.nonneg
        rw [h.left_cons] at hcap
        obtain ⟨hgrid', hsum⟩ := p.saturatingAdd_of_le hp hgrid (h.grid_total List.mem_cons_self)
          (by omega) (by omega)
        rw [h.supply_cons hcross, if_pos (show o.side.Crosses _ _ from hcross), ← Int.add_assoc,
          ← hsum]
        by_cases hmet : cap ≤ available.saturatingAdd level.total
        · rw [if_pos hmet]
          exact ⟨by omega, fun hlt => absurd hmet (Int.not_le.mpr hlt)⟩
        · rw [if_neg hmet]
          exact ih h.tail hgrid' (by omega) (by omega)
      · -- Where counting stops for the price, nothing more would suit.
        rw [h.supply_eq_zero hcross, if_neg (show ¬ o.side.Crosses _ _ from hcross), Int.add_zero]
        exact ⟨Int.le_refl _, fun _ => rfl⟩

end ExactLevels

end Levels

/-- Where anything is counted, the first in line suits. -/
theorem Sound.meets_of_counted {b : Book} {o : Order} {cap : Quantity} (hs : b.Sound)
    (hp : b.Packed) (h : 0 < b.crossingLiquidity o.side o.price cap) :
    ∃ maker line, b.lines o.side.opposite = maker :: line ∧ o.Meets maker := by
  cases hl : (b.ladder o.side.opposite).levels with
  | nil =>
      simp only [crossingLiquidity, hl, reachable] at h
      exact absurd h (by decide)
  | cons level levels =>
      have hmem : level ∈ (b.ladder o.side.opposite).levels := by
        rw [hl]
        exact List.mem_cons_self
      by_cases hcross : o.Crosses level.price
      · obtain ⟨maker, rest, horders⟩ := List.exists_cons_of_ne_nil (hp _ level hmem)
        have hmaker : maker ∈ level.orders := by
          rw [horders]
          exact List.mem_cons_self
        obtain ⟨q, hq, hv⟩ := (((hs.ladder _).sound level hmem).placed maker hmaker).price_eq
        refine ⟨maker, rest ++ levels.flatMap Level.orders, ?_, q, hq, hcross.congr hv.symm⟩
        simp only [lines, Ladder.orders, hl, List.flatMap_cons, horders, List.cons_append]
      · simp only [crossingLiquidity, hl, reachable] at h
        rw [if_neg (show ¬ o.side.Crosses _ _ from hcross)] at h
        exact absurd h (by decide)

namespace Exact

variable {p : Precision} {b : Book}

theorem levels (h : b.Exact p) (side : Side) : ExactLevels p side (b.ladder side).levels where
  inLine := by
    have hline := (h.sound.ladder side).inLine
    rw [h.sound.side_eq] at hline
    exact hline
  sound := by
    intro level hl
    have hlevel := (h.sound.ladder side).sound level hl
    rw [h.sound.side_eq] at hlevel
    exact hlevel
  total_eq := h.total_eq side
  onGrid := by
    intro level hl x hx
    exact h.onGrid x (h.sound.holds_of_mem (List.mem_flatMap.mpr ⟨level, hl, hx⟩))

/-- In an `Exact` book `crossingLiquidity` is what is left of the orders that would suit, or else
there is enough. -/
theorem crossingLiquidity (h : b.Exact p) (hp : p.slack = 0) (o : Order) (cap : Quantity) :
    Counts cap (o.supply (b.lines o.side.opposite)) (b.crossingLiquidity o.side o.price cap) := by
  have hzero : (0 : Decimal).atoms = 0 := Decimal.atoms_zero
  have hcount : Counts cap ((0 : Decimal).atoms + o.supply (b.lines o.side.opposite))
      (b.crossingLiquidity o.side o.price cap) :=
    (h.levels o.side.opposite).reachable hp (hzero ▸ Int.dvd_zero _) (Int.le_of_eq hzero.symm)
      (by rw [hzero, Int.zero_add]; exact h.left_le o.side.opposite)
  rw [hzero, Int.zero_add] at hcount
  exact hcount

/-- Every order takes up a unit of the grid, so that there are not too many of them. -/
theorem length_le (h : b.Exact p) (side : Side) :
    (b.lines side).length * p.grid ≤ p.cap := by
  refine Int.le_trans ?_ (h.left_le side)
  have hmem : ∀ x ∈ b.lines side, p.grid ≤ x.remaining.atoms := by
    intro x hx
    have hfit := h.onGrid x (h.sound.holds_of_mem hx)
    exact Int.le_of_dvd hfit.pos hfit.grid
  generalize b.lines side = line at hmem
  induction line with
  | nil => simp
  | cons x line ih =>
      have hx := hmem x List.mem_cons_self
      have hline := ih fun y hy => hmem y (List.mem_cons_of_mem _ hy)
      rw [List.length_cons, left_cons, Int.natCast_add, Int.add_mul]
      omega

theorem lively (h : b.Exact p) : b.Lively := fun x hx => ⟨(h.onGrid x hx).live, (h.onGrid x hx).pos⟩

/-- Whoever is charged half a unit can pay, for there are fewer orders than the range has units: an
`Exact` book is `Solvent`. -/
theorem solvent {k : Nat} {hk : k ≤ 28} (h : b.Exact (.exact k hk)) :
    b.Solvent (halfUnit * (coeffBound - 1) : Nat) where
  lively := h.lively
  nonneg := Int.natCast_nonneg _
  stake_le := by
    intro side level hl
    have hsub : level.orders.Sublist (b.lines side) := by
      obtain ⟨pre, post, hsplit⟩ := List.append_of_mem hl
      simp only [lines, Ladder.orders, hsplit, List.flatMap_append, List.flatMap_cons]
      exact (List.sublist_append_left _ _).trans (List.sublist_append_right _ _)
    have hfew : (b.lines side).length ≤ coeffBound - 1 := by
      have hunits := h.length_le side
      have hpos := tenTo_pos (28 - k)
      refine Nat.le_of_mul_le_mul_right (c := tenTo (28 - k)) ?_ hpos
      exact Int.ofNat_le.mp hunits
    have hcharge := Nat.mul_le_mul_left halfUnit (Nat.le_trans hsub.length_le hfew)
    rw [stake_eq, ← h.total_eq side level hl]
    omega

end Exact

/-- A `Balanced` book without any slack is `Exact`, if it is within the range. -/
theorem Balanced.exact {p : Precision} {bound : Int} {count : Nat} {b : Book}
    (h : b.Balanced p bound 0 count) (hs : b.Sound) (hcap : bound ≤ p.cap) : b.Exact p where
  sound := hs
  packed := h.packed
  total_eq := by
    intro side level hl
    have hclose := h.close side level hl
    have hle := hclose.le
    have hge := hclose.ge
    omega
  onGrid := by
    intro x hx
    have hfit := h.fit x hx
    exact ⟨hfit.live, hfit.pos, hfit.grid_remaining⟩
  left_le side := Int.le_trans (h.left_le side) hcap

end Book

end Bourse
