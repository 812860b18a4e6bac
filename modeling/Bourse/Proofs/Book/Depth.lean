import Mathlib.Algebra.Order.BigOperators.Group.List
import Mathlib.Algebra.Order.Ring.Int
import Bourse.Book.Snapshot
import Bourse.Proofs.Book.Balance

/-!
# What a depth shows

A level shows a price and a sum that it keeps. `Shows` says what that ought to be without
a word on levels: the prices are those at which orders rest, each once and the best first,
and a quantity is what is left of the orders at its price. As long as the sums of the
levels are exact, the `depth` of a ladder is just that. It is the front of its `entries`,
so those are what `Balanced.shows` is about.
-/

namespace Bourse

/-- The order is to trade at a price. -/
def Order.RestsAt (price : Price) (o : Order) : Prop := ∃ p ∈ o.price, p.SameValue price

instance (price : Price) (o : Order) : Decidable (o.RestsAt price) := by
  unfold Order.RestsAt
  infer_instance

/-- The prices of the orders of a side, best first, and what is left at each of them. -/
structure Shows (side : Side) (orders : List Order) (shown : List (Price × Quantity)) : Prop where
  inLine : shown.Pairwise fun a b => side.Better a.1 b.1
  price_iff : ∀ price,
    (∃ entry ∈ shown, entry.1.SameValue price) ↔ ∃ o ∈ orders, o.RestsAt price
  quantity_eq : ∀ entry ∈ shown, entry.2.atoms = left (orders.filter fun o => o.RestsAt entry.1)
  quantity_pos : ∀ entry ∈ shown, 0 < entry.2

namespace Ladder

/-- Prices and sums of all levels; `depth` shows the first of them. -/
def entries (l : Ladder) : List (Price × Quantity) :=
  l.levels.map fun level => (level.price, level.total)

theorem depth_eq (l : Ladder) (n : Nat) : l.depth n = l.entries.take n := by
  rw [depth, entries, List.map_take]

theorem bestPrice?_eq (l : Ladder) : l.bestPrice? = l.entries.head?.map Prod.fst := by
  rw [bestPrice?, best?, entries]
  cases l.levels <;> rfl

variable {l : Ladder} {level : Level} {price : Price} {n : Nat}

/-- The first price shown is `bestPrice?`. -/
theorem head?_take (hn : 0 < n) : (l.entries.take n).head?.map Prod.fst = l.bestPrice? := by
  rw [l.bestPrice?_eq, List.head?_take, if_neg (Nat.ne_of_gt hn)]

theorem bestPrice?_of_take (h : (l.entries.take n).head?.map Prod.fst = some price) :
    l.bestPrice? = some price := by
  cases n with
  | zero => cases h
  | succ n => exact (head?_take n.succ_pos).symm.trans h

theorem Sound.restsAt_iff (h : l.Sound) (hl : level ∈ l.levels) {o : Order}
    (ho : o ∈ level.orders) : o.RestsAt price ↔ level.price.SameValue price := by
  obtain ⟨p, hp, hv⟩ := ((h.sound level hl).placed o ho).price_eq
  constructor
  · rintro ⟨q, hq, hqv⟩
    rw [hp] at hq
    cases hq
    exact hv.symm.trans hqv
  · exact fun hv' => ⟨p, hp, hv.trans hv'⟩

/-- The orders that rest at the price of a level are those of the level. -/
theorem Sound.filter_orders (h : l.Sound) (hl : level ∈ l.levels) :
    l.orders.filter (fun o => o.RestsAt level.price) = level.orders := by
  obtain ⟨pre, post, hsplit⟩ := List.append_of_mem hl
  obtain ⟨hpre, hpost⟩ := (hsplit ▸ h.inLine : InLine l.side (pre ++ level :: post)).around
  have hnone {levels : List Level} (hsub : ∀ x ∈ levels, x ∈ l.levels)
      (hne : ∀ x ∈ levels, l.side.rank x.price ≠ l.side.rank level.price) :
      (levels.flatMap Level.orders).filter (fun o => o.RestsAt level.price) = [] := by
    refine List.filter_eq_nil_iff.mpr fun o ho => ?_
    obtain ⟨x, hx, ho⟩ := List.mem_flatMap.mp ho
    rw [decide_eq_true_eq, h.restsAt_iff (hsub x hx) ho, l.side.sameValue_iff]
    exact hne x hx
  have hown : level.orders.filter (fun o => o.RestsAt level.price) = level.orders :=
    List.filter_eq_self.mpr fun o ho =>
      decide_eq_true ((h.restsAt_iff hl ho).mpr (Decimal.SameValue.refl _))
  rw [orders, hsplit, List.flatMap_append, List.flatMap_cons, List.filter_append,
    List.filter_append, hown, hnone, hnone, List.append_nil, List.nil_append]
  · exact fun x hx => by rw [hsplit]; exact List.mem_append_right _ (List.mem_cons_of_mem _ hx)
  · exact fun x hx => Int.ne_of_gt (hpost x hx)
  · exact fun x hx => by rw [hsplit]; exact List.mem_append_left _ hx
  · exact fun x hx => Int.ne_of_lt (hpre x hx)

end Ladder

/-- What is left of the orders of some levels is the sum of their sums, if those are exact. -/
theorem left_flatMap {p : Decimal.Precision} {levels : List Level}
    (h : ∀ level ∈ levels, level.Close p 0) :
    left (levels.flatMap Level.orders) = (levels.map fun level => level.total.atoms).sum := by
  induction levels with
  | nil => rfl
  | cons level rest ih =>
      obtain ⟨hlevel, hrest⟩ := List.forall_mem_cons.mp h
      have hle := hlevel.le
      have hge := hlevel.ge
      rw [List.flatMap_cons, left_append, ih hrest, List.map_cons, List.sum_cons]
      omega

namespace BookSnapshot

variable {p : Decimal.Precision} {shown : List (Price × Quantity)}

/-- Adding quantities up with `saturatingAdd` is exact on the grid, as long as the sum stays in
range. -/
theorem foldl_saturatingAdd (hp : p.slack = 0) (sum : Quantity) (hsum : p.grid ∣ sum.atoms)
    (hnonneg : 0 ≤ sum.atoms)
    (hgrid : ∀ entry ∈ shown, p.grid ∣ entry.2.atoms ∧ 0 ≤ entry.2.atoms)
    (hcap : sum.atoms + (shown.map fun entry => entry.2.atoms).sum ≤ p.cap) :
    (shown.foldl (fun sum level => sum.saturatingAdd level.2) sum).atoms =
      sum.atoms + (shown.map fun entry => entry.2.atoms).sum := by
  induction shown generalizing sum with
  | nil => exact (Int.add_zero _).symm
  | cons entry rest ih =>
      obtain ⟨⟨hentry, hpos⟩, hrest⟩ := List.forall_mem_cons.mp hgrid
      have htail : 0 ≤ (rest.map fun entry => entry.2.atoms).sum :=
        List.sum_nonneg fun x hx => by
          obtain ⟨y, hy, rfl⟩ := List.mem_map.mp hx
          exact (hrest y hy).2
      rw [List.map_cons, List.sum_cons] at hcap ⊢
      obtain ⟨hgrid, hadd⟩ := p.saturatingAdd_of_le hp hsum hentry (by omega) (by omega)
      rw [List.foldl_cons, ih _ hgrid (by omega) hrest (by omega)]
      omega

/-- `totalOf` is exact if it stays in range and its terms lie on the grid of an exact precision. -/
theorem totalOf_eq (hp : p.slack = 0)
    (hgrid : ∀ entry ∈ shown, p.grid ∣ entry.2.atoms ∧ 0 ≤ entry.2.atoms)
    (hcap : (shown.map fun entry => entry.2.atoms).sum ≤ p.cap) :
    (totalOf shown).atoms = (shown.map fun entry => entry.2.atoms).sum := by
  have hzero : (0 : Decimal).atoms = 0 := Decimal.atoms_zero
  rw [totalOf, foldl_saturatingAdd hp 0 (hzero ▸ Int.dvd_zero _) (Int.le_of_eq hzero.symm) hgrid
    (by omega), hzero, Int.zero_add]

end BookSnapshot

namespace Book

variable {p : Decimal.Precision} {bound : Int} {count : Nat} {b : Book}

/-- The `entries` of a side show its orders. -/
theorem Balanced.shows (h : b.Balanced p bound 0 count) (hs : b.Sound) (side : Side) :
    Shows side (b.ladder side).orders (b.ladder side).entries := by
  have hl := hs.ladder side
  have hside := hs.side_eq side
  have hsum {level : Level} (hmem : level ∈ (b.ladder side).levels) :
      level.total.atoms = left level.orders := by
    have hle := (h.close side level hmem).le
    have hge := (h.close side level hmem).ge
    omega
  refine ⟨?_, fun price => ⟨?_, ?_⟩, fun entry hentry => ?_, fun entry hentry => ?_⟩
  · have hline := hl.inLine
    rw [hside] at hline
    exact List.pairwise_map.mpr (hline.imp fun hlt => (side.better_iff _ _).mpr hlt)
  · rintro ⟨entry, hentry, hv⟩
    obtain ⟨level, hmem, rfl⟩ := List.mem_map.mp hentry
    obtain ⟨o, ho⟩ := List.exists_mem_of_ne_nil _ (h.packed side level hmem)
    exact ⟨o, List.mem_flatMap.mpr ⟨level, hmem, ho⟩, (hl.restsAt_iff hmem ho).mpr hv⟩
  · rintro ⟨o, ho, hrests⟩
    obtain ⟨level, hmem, ho⟩ := List.mem_flatMap.mp ho
    exact ⟨_, List.mem_map_of_mem hmem, (hl.restsAt_iff hmem ho).mp hrests⟩
  · obtain ⟨level, hmem, rfl⟩ := List.mem_map.mp hentry
    rw [hl.filter_orders hmem]
    exact hsum hmem
  · obtain ⟨level, hmem, rfl⟩ := List.mem_map.mp hentry
    have hpos {o : Order} (ho : o ∈ level.orders) : 0 < o.remaining.atoms :=
      (h.fit o (hs.holds_of_mem (List.mem_flatMap.mpr ⟨level, hmem, ho⟩))).pos
    show 0 < level.total.atoms
    rw [hsum hmem]
    cases hx : level.orders with
    | nil => exact absurd hx (h.packed side level hmem)
    | cons o rest =>
        have ho := hpos (hx ▸ List.mem_cons_self)
        have hrest : 0 ≤ left rest :=
          left_nonneg fun x hx' => Int.le_of_lt (hpos (hx ▸ List.mem_cons_of_mem _ hx'))
        rw [left_cons]
        omega

/-- The sum of a whole side is what is left of its orders. -/
theorem Balanced.totalOf_eq (h : b.Balanced p bound 0 count) (hs : b.Sound) (hp : p.slack = 0)
    (hcap : bound ≤ p.cap) (side : Side) :
    (BookSnapshot.totalOf (b.ladder side).entries).atoms = left (b.ladder side).orders := by
  have hleft : left (b.ladder side).orders =
      ((b.ladder side).entries.map fun entry => entry.2.atoms).sum := by
    rw [Ladder.orders, left_flatMap (h.close side), Ladder.entries, List.map_map]
    rfl
  rw [hleft]
  refine BookSnapshot.totalOf_eq hp (fun entry hentry => ⟨?_, ?_⟩) ?_
  · obtain ⟨level, hmem, rfl⟩ := List.mem_map.mp hentry
    exact (h.close side level hmem).grid
  · exact Int.le_of_lt ((h.shows hs side).quantity_pos entry hentry)
  · rw [← hleft]
    exact Int.le_trans (h.left_le side) hcap

end Book

end Bourse
