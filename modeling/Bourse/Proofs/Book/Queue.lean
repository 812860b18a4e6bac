import Mathlib.Data.List.Sort
import Bourse.Proofs.Book.Operations

/-!
# A side as one line

The levels of a side, read one after the other, make one line of orders, strictly sorted
by `Order.Before`, who trades first. A line that is strictly sorted is known by the orders
in it: two lines with the same orders are the same line (`line_ext`). So what an operation
does to the line of a side follows from which orders rest afterwards, without a look at
the levels. An order that arrives is inserted where it belongs, one that departs is
erased, and one that is rewritten stays where it was.
-/

namespace Bourse

namespace Order

variable {side : Side} {o o' : Order}

instance (side : Side) : DecidableRel (Before side) := fun o o' =>
  match hp : o.price, hp' : o'.price with
  | some p, some p' =>
    decidable_of_iff (side.rank p < side.rank p' ∨
        (side.rank p = side.rank p' ∧ o.sequence < o'.sequence)) <| by
      constructor
      · intro h
        exact ⟨p, p', hp, hp', h⟩
      · rintro ⟨q, q', hq, hq', h⟩
        rw [hp] at hq
        rw [hp'] at hq'
        cases hq
        cases hq'
        exact h
  | none, _ => isFalse fun ⟨_, _, h, _⟩ => by rw [hp] at h; cases h
  | some _, none => isFalse fun ⟨_, _, _, h, _⟩ => by rw [hp'] at h; cases h

theorem Before.asymm (h : Before side o o') : ¬ Before side o' o := by
  obtain ⟨p, p', hp, hp', hlt⟩ := h
  rintro ⟨q, q', hq, hq', hlt'⟩
  rw [hp'] at hq
  rw [hp] at hq'
  cases hq
  cases hq'
  omega

/-- Nothing but its price and its number places an order in line. -/
theorem Same.before_iff {o₁ o₁' o₂ o₂' : Order} (h₁ : Same o₁ o₁') (h₂ : Same o₂ o₂') :
    Before side o₁' o₂' ↔ Before side o₁ o₂ := by
  unfold Before
  rw [h₁.price_eq, h₂.price_eq, h₁.sequence_eq, h₂.sequence_eq]

end Order

/-- Two lines in which the same orders stand are the same. -/
theorem line_ext {side : Side} {xs ys : List Order} (hx : xs.Pairwise (Order.Before side))
    (hy : ys.Pairwise (Order.Before side)) (h : ∀ o, o ∈ xs ↔ o ∈ ys) : xs = ys := by
  have hnodup {l : List Order} (hl : l.Pairwise (Order.Before side)) : l.Nodup := by
    refine hl.imp ?_
    rintro a b hab rfl
    exact hab.asymm hab
  have hperm : xs.Perm ys := (List.perm_ext_iff_of_nodup (hnodup hx) (hnodup hy)).mpr h
  refine hperm.eq_of_pairwise ?_ hx hy
  intro a b _ _ hab hba
  exact absurd hba hab.asymm

/-- An order that stands in line is where `orderedInsert` puts it. -/
theorem orderedInsert_of_line {side : Side} {o : Order} {xs ys : List Order}
    (h : (xs ++ o :: ys).Pairwise (Order.Before side)) :
    (xs ++ ys).orderedInsert (Order.Before side) o = xs ++ o :: ys := by
  induction xs with
  | nil =>
      cases ys with
      | nil => rfl
      | cons y ys =>
          have hlt : Order.Before side o y := (List.pairwise_cons.mp h).1 y List.mem_cons_self
          exact List.orderedInsert_cons_of_le _ _ hlt
  | cons x xs ih =>
      obtain ⟨hx, hrest⟩ := List.pairwise_cons.mp h
      have hlt : Order.Before side x o := hx o (by simp)
      rw [List.cons_append, List.orderedInsert_cons, if_neg hlt.asymm, ih hrest, List.cons_append]

namespace Book

variable {b b' : Book} {o o' : Order} {side : Side}

theorem Sound.line (h : b.Sound) (side : Side) :
    (b.ladder side).orders.Pairwise (Order.Before side) := by
  have hline := (h.ladder side).before
  rw [h.side_eq] at hline
  exact hline

/-- An order stands in the line of its own side and in no other. -/
theorem Sound.mem_line_iff (h : b.Sound) :
    o ∈ (b.ladder side).orders ↔ b.Holds o ∧ o.side = side := by
  constructor
  · intro ho
    exact ⟨h.holds_of_mem ho, h.side_of_mem ho⟩
  · rintro ⟨ho, rfl⟩
    exact ho

/-- A line that is in order and has the orders a book `Holds` of a side is the line of that side. -/
theorem Sound.line_eq (h : b.Sound) {line : List Order}
    (hline : line.Pairwise (Order.Before side))
    (hmem : ∀ x, x ∈ line ↔ b.Holds x ∧ x.side = side) : (b.ladder side).orders = line := by
  refine line_ext (h.line side) hline fun x => ?_
  rw [h.mem_line_iff, hmem]

/-- What has `Arrived` is inserted where it belongs. -/
theorem Arrived.line_eq (ha : Arrived o b b') (h : b.Sound) (hfree : ¬ b.Has o.id) :
    (b'.ladder o.side).orders = (b.ladder o.side).orders.orderedInsert (Order.Before o.side) o := by
  have hmem : o ∈ (b'.ladder o.side).orders := (ha.holds_iff o).mpr (Or.inl rfl)
  obtain ⟨xs, ys, hsplit⟩ := List.append_of_mem hmem
  have hline := ha.sound.line o.side
  rw [hsplit] at hline
  have hbefore : (b.ladder o.side).orders = xs ++ ys := by
    refine h.line_eq ?_ fun x => ?_
    · exact hline.sublist (List.Sublist.append_left (List.sublist_cons_self o ys) xs)
    · rw [ha.sound.mem_rest_iff hmem hsplit, ha.sound.mem_line_iff, ha.holds_iff]
      constructor
      · rintro ⟨⟨rfl | hx, hs⟩, hne⟩
        · exact absurd rfl hne
        · exact ⟨hx, hs⟩
      · rintro ⟨hx, hs⟩
        exact ⟨⟨Or.inr hx, hs⟩, fun hid => hfree ⟨x, hx, hid⟩⟩
  rw [hbefore, hsplit, orderedInsert_of_line hline]

/-- The other side does not notice an arrival. -/
theorem Arrived.line_of_ne (ha : Arrived o b b') (h : b.Sound) (hs : side ≠ o.side) :
    (b'.ladder side).orders = (b.ladder side).orders := by
  refine ha.sound.line_eq (h.line side) fun x => ?_
  rw [h.mem_line_iff, ha.holds_iff]
  constructor
  · rintro ⟨hx, hxs⟩
    exact ⟨Or.inr hx, hxs⟩
  · rintro ⟨rfl | hx, hxs⟩
    · exact absurd hxs.symm hs
    · exact ⟨hx, hxs⟩

/-- What has `Departed` is erased. -/
theorem Departed.line_eq (hd : Departed o b b') (h : b.Sound) (side : Side) :
    (b'.ladder side).orders = (b.ladder side).orders.filter fun x => x.id ≠ o.id := by
  refine hd.sound.line_eq ((h.line side).filter _) fun x => ?_
  rw [List.mem_filter, decide_eq_true_eq, h.mem_line_iff, hd.holds_iff]
  exact and_right_comm

/-- What has been `Rewritten` keeps its place. -/
theorem Rewritten.line_eq (hr : Rewritten o o' b b') (h : b.Sound) (ho : b.Holds o)
    (hsame : o.Same o') (side : Side) :
    (b'.ladder side).orders =
      (b.ladder side).orders.map fun x => if x.id = o.id then o' else x := by
  -- Under the identity of the order stands no other.
  have hput {x : Order} (hx : b.Holds x) : x.Same (if x.id = o.id then o' else x) := by
    split
    · next hid =>
        obtain rfl := h.eq_of_id hx ho hid
        exact hsame
    · exact .refl x
  refine hr.sound.line_eq ?_ fun x => ?_
  · refine List.pairwise_map.mpr ((h.line side).imp_of_mem ?_)
    intro x y hx hy hlt
    exact ((hput (h.holds_of_mem hx)).before_iff (hput (h.holds_of_mem hy))).mpr hlt
  · rw [List.mem_map, hr.holds_iff]
    constructor
    · rintro ⟨y, hy, rfl⟩
      obtain ⟨hheld, hside⟩ := h.mem_line_iff.mp hy
      refine ⟨?_, (hput hheld).side_eq.trans hside⟩
      split
      · exact Or.inl rfl
      · next hne => exact Or.inr ⟨hheld, hne⟩
    · rintro ⟨rfl | ⟨hx, hne⟩, hside⟩
      · exact ⟨o, h.mem_line_iff.mpr ⟨ho, hsame.side_eq.symm.trans hside⟩, if_pos rfl⟩
      · exact ⟨x, h.mem_line_iff.mpr ⟨hx, hside⟩, if_neg hne⟩

theorem Kept.line_eq (hk : Kept b b') (h : b.Sound) (side : Side) :
    (b'.ladder side).orders = (b.ladder side).orders := by
  refine hk.sound.line_eq (h.line side) fun x => ?_
  rw [h.mem_line_iff, hk.holds_iff]

/-! ## The identities that rest -/

/-- The identities of the orders in a book, from the best bid to the last and from the best ask
to the last. -/
def ids (b : Book) : List OrderId := (b.bids.orders ++ b.asks.orders).map Order.id

theorem Sound.mem_ids (h : b.Sound) {id : OrderId} : id ∈ b.ids ↔ b.Has id := by
  unfold ids
  constructor
  · intro hid
    obtain ⟨o, ho, rfl⟩ := List.mem_map.mp hid
    rcases List.mem_append.mp ho with
      (hbid : o ∈ (b.ladder .buy).orders) | (hask : o ∈ (b.ladder .sell).orders)
    · exact ⟨o, h.holds_of_mem hbid, rfl⟩
    · exact ⟨o, h.holds_of_mem hask, rfl⟩
  · rintro ⟨o, ho, rfl⟩
    refine List.mem_map_of_mem (List.mem_append.mpr ?_)
    unfold Book.Holds at ho
    cases hside : o.side with
    | buy =>
        rw [hside] at ho
        exact Or.inl ho
    | sell =>
        rw [hside] at ho
        exact Or.inr ho

/-- The orders of a side have identities of their own. -/
theorem Sound.ids_pairwise (h : b.Sound) (side : Side) :
    (b.ladder side).orders.Pairwise fun x y => x.id ≠ y.id := by
  refine (h.ladder side).before.imp_of_mem fun {x y} hx hy hbefore hid => ?_
  obtain rfl := h.eq_of_id (h.holds_of_mem hx) (h.holds_of_mem hy) hid
  exact hbefore.asymm hbefore

theorem Sound.ids_nodup (h : b.Sound) : b.ids.Nodup := by
  unfold ids
  refine List.pairwise_map.mpr (List.pairwise_append.mpr
    ⟨h.ids_pairwise .buy, h.ids_pairwise .sell, ?_⟩)
  intro x (hx : x ∈ (b.ladder .buy).orders) y (hy : y ∈ (b.ladder .sell).orders) hid
  have hbuy := h.side_of_mem hx
  rw [h.eq_of_id (h.holds_of_mem hx) (h.holds_of_mem hy) hid, h.side_of_mem hy] at hbuy
  cases hbuy

end Book

end Bourse
