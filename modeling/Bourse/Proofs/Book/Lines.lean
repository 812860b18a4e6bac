import Bourse.Proofs.Book.Request

/-!
# Two lines of orders

Without its levels, its sums and its index a book is no more than two `Lines` of orders.
What can be asked of a book can be asked of the lines: an order is inserted where it
belongs, erased, rewritten where it stands, or filled at the head of its line.
`Request.serve` says that in terms of lists alone. The rest is the view from the book: its
`lines`, what its index says of them, and what becomes of them when an order comes, goes
or changes.
-/

namespace Bourse

/-- The orders of either side, who trades first in front. -/
abbrev Lines := Side → List Order

namespace Lines

/-- All orders, the bids first. -/
def orders (l : Lines) : List Order := l .buy ++ l .sell

/-- The order under an identity. -/
def find? (l : Lines) (id : OrderId) : Option Order := l.orders.find? fun o => o.id = id

/-- The lines with one of them replaced. -/
def set (l : Lines) (side : Side) (line : List Order) : Lines :=
  fun s => if s = side then line else l s

/-- Puts an order in where it belongs, by `orderedInsert`. -/
def insert (l : Lines) (o : Order) : Lines :=
  l.set o.side ((l o.side).orderedInsert (Order.Before o.side) o)

/-- Takes the order under an identity out. -/
def erase (l : Lines) (id : OrderId) : Lines := fun side => (l side).filter fun o => o.id ≠ id

/-- Puts an order in the place of the one under its identity. -/
def replace (l : Lines) (o : Order) : Lines :=
  fun side => (l side).map fun x => if x.id = o.id then o else x

/-- A limit order with something left of it, under a new identity, that everything in its line
stands `Before` or behind. -/
def Admits (l : Lines) (o : Order) : Prop :=
  o.orderType = .limit ∧ o.price.isSome = true ∧ 0 < o.remaining ∧ l.find? o.id = none ∧
    ∀ x ∈ l o.side, Order.Before o.side x o ∨ Order.Before o.side o x

instance (l : Lines) (o : Order) : Decidable (l.Admits o) :=
  inferInstanceAs (Decidable (_ ∧ _ ∧ _ ∧ _ ∧ _))

end Lines

namespace Book

/-- What a request comes to if there is nothing but lines: the order it is answered with and the
lines it leaves, or nothing if it cannot be met. -/
def Request.serve (l : Lines) : Request → Option (Order × Lines)
  | .insert o => if l.Admits o then some (o, l.insert o) else none
  | .cancel id => (l.find? id).map fun o => ({ o with status := .cancelled }, l.erase id)
  | .take id => (l.find? id).map fun o => (o, l.erase id)
  | .removeFilled id => (l.find? id).bind fun o =>
    if 0 < o.remaining then none else some (o, l.erase id)
  | .fillBest side q =>
    match l side with
    | [] => none
    | o :: rest =>
      match o.fill q with
      | .error _ => none
      | .ok o' => some (o', l.set side (if o'.remaining.SameValue 0 then rest else o' :: rest))
  | .reduce id q => (l.find? id).bind fun o =>
    if q ≤ 0 ∨ o.remaining < q then none
    else
      match Order.setRemaining q o with
      | .error _ _ => none
      | .ok _ o' => some (o', l.replace o')

/-- The `Lines` of a book. -/
def lines (b : Book) : Lines := fun side => (b.ladder side).orders

/-- A book is in step with its `lines`: they are strictly sorted and hold nothing but what can
trade, the levels divide them by the numbers of their prices, and the index has the places of the
orders in them and of no others. -/
structure InStep (b : Book) : Prop where
  sorted : ∀ side, (b.lines side).Pairwise (Order.Before side)
  side_eq : ∀ side, ∀ o ∈ b.lines side, o.side = side
  orderType_eq : ∀ o ∈ b.lines.orders, o.orderType = .limit
  remaining_pos : ∀ o ∈ b.lines.orders, 0 < o.remaining
  ids_nodup : (b.lines.orders.map Order.id).Nodup
  levels : ∀ side, (b.ladder side).levels.Pairwise fun l l' =>
    side.rank l.price < side.rank l'.price
  level : ∀ side, ∀ l ∈ (b.ladder side).levels, ∀ o ∈ l.orders,
    ∃ p, o.price = some p ∧ p.SameValue l.price
  index : ∀ id place, b.index.get? id = some place ↔
    ∃ o ∈ b.lines.orders, o.id = id ∧ o.place? = some place
  get?_eq : ∀ id, b.get? id = b.lines.find? id
  contains_eq : ∀ id, b.contains id = (b.lines.find? id).isSome
  size_eq : b.size = b.lines.orders.length

section Lines

variable {b b' : Book} {o o' : Order} {id : OrderId} {side : Side} {rest : List Order}

theorem Sound.mem_lines_iff (h : b.Sound) : o ∈ b.lines.orders ↔ b.Holds o := by
  constructor
  · intro ho
    rcases List.mem_append.mp ho with ho | ho
    · exact h.holds_of_mem (show o ∈ (b.ladder .buy).orders from ho)
    · exact h.holds_of_mem (show o ∈ (b.ladder .sell).orders from ho)
  · intro ho
    unfold Holds at ho
    refine List.mem_append.mpr ?_
    cases hs : o.side with
    | buy => exact Or.inl (hs ▸ ho)
    | sell => exact Or.inr (hs ▸ ho)

/-- The index finds what stands in the `lines`. -/
theorem Sound.find?_lines (h : b.Sound) (id : OrderId) : b.lines.find? id = b.get? id := by
  cases hfound : b.lines.find? id with
  | none =>
      have hfree : ¬ b.Has id := by
        rintro ⟨o, ho, rfl⟩
        have hne := List.find?_eq_none.mp hfound o (h.mem_lines_iff.mpr ho)
        exact hne (decide_eq_true rfl)
      cases hget : b.get? id with
      | none => rfl
      | some o =>
          obtain ⟨ho, hid⟩ := h.get?_iff.mp hget
          exact absurd ⟨o, ho, hid⟩ hfree
  | some o =>
      have ho := h.mem_lines_iff.mp (List.mem_of_find?_eq_some hfound)
      have hid : o.id = id := by simpa using List.find?_some hfound
      exact (h.get?_iff.mpr ⟨ho, hid⟩).symm

theorem Sound.find?_held (h : b.Sound) (ho : b.Holds o) : b.lines.find? o.id = some o :=
  (h.find?_lines o.id).trans (h.get?_eq ho)

theorem Sound.find?_absent (h : b.Sound) (hid : ¬ b.Has id) : b.lines.find? id = none := by
  rw [h.find?_lines]
  cases hget : b.get? id with
  | none => rfl
  | some o =>
      obtain ⟨ho, rfl⟩ := h.get?_iff.mp hget
      exact absurd ⟨o, ho, rfl⟩ hid

theorem Sound.admits_iff (h : b.Sound) : b.lines.Admits o ↔ b.Insertable o := by
  have hfree : b.lines.find? o.id = none ↔ ¬ b.Has o.id := by
    constructor
    · rintro hnone ⟨x, hx, hid⟩
      rw [← hid, h.find?_held hx] at hnone
      cases hnone
    · exact h.find?_absent
  constructor
  · rintro ⟨hlimit, hpriced, hpos, hnone, hplaced⟩
    exact ⟨hlimit, hpriced, hpos, hfree.mp hnone, hplaced⟩
  · rintro ⟨hlimit, hpriced, hpos, hnew, hplaced⟩
    exact ⟨hlimit, hpriced, hpos, hfree.mpr hnew, hplaced⟩

/-- A `Sound` book of orders that can trade, whose index has no key twice, is `InStep`. -/
theorem Sound.inStep (h : b.Sound) (hkeyed : b.Keyed) (hlively : b.Lively) : b.InStep where
  sorted := h.line
  side_eq side o ho := h.side_of_mem ho
  orderType_eq o ho := by
    obtain ⟨_, -, hstands⟩ := h.standsAt (h.mem_lines_iff.mp ho)
    exact hstands.orderType_eq
  remaining_pos o ho := (hlively o (h.mem_lines_iff.mp ho)).2
  ids_nodup := h.ids_nodup
  levels side := by
    have hline := (h.ladder side).inLine
    rw [h.side_eq] at hline
    exact hline
  level side l hl o ho := (((h.ladder side).sound l hl).placed o ho).price_eq
  index id place := by
    simp only [h.index, h.mem_lines_iff]
  get?_eq id := (h.find?_lines id).symm
  contains_eq id := by
    rw [h.find?_lines, Bool.eq_iff_iff, h.contains_iff, Option.isSome_iff_exists]
    simp only [h.get?_iff]
    rfl
  size_eq := by
    have hkeys (id : OrderId) : id ∈ b.ids ↔ (b.index.get? id).isSome = true :=
      h.mem_ids.trans h.contains_iff.symm
    refine (hkeyed.size_eq h.ids_nodup hkeys).trans ?_
    exact List.length_map ..

/-! ## What becomes of the lines -/

theorem Kept.lines_eq (hk : Kept b b') (h : b.Sound) : b'.lines = b.lines :=
  funext fun side => hk.line_eq h side

theorem Arrived.lines_eq (ha : Arrived o b b') (h : b.Sound) (hfree : ¬ b.Has o.id) :
    b'.lines = b.lines.insert o := by
  funext side
  unfold Lines.insert Lines.set
  split
  · next hs =>
      rw [hs]
      exact ha.line_eq h hfree
  · next hs => exact ha.line_of_ne h hs

theorem Departed.lines_eq (hd : Departed o b b') (h : b.Sound) : b'.lines = b.lines.erase o.id :=
  funext fun side => hd.line_eq h side

theorem Rewritten.lines_eq (hw : Rewritten o o' b b') (h : b.Sound) (ho : b.Holds o)
    (hsame : o.Same o') : b'.lines = b.lines.replace o' := by
  funext side
  refine (hw.line_eq h ho hsame side).trans ?_
  unfold Lines.replace
  rw [hsame.id_eq]
  rfl

/-- The orders that stand elsewhere have other identities than the head of a line. -/
theorem Sound.ne_head (h : b.Sound) (hl : b.lines side = o :: rest) :
    (∀ x ∈ rest, x.id ≠ o.id) ∧ ∀ s, s ≠ side → ∀ x ∈ b.lines s, x.id ≠ o.id := by
  have hmem : o ∈ (b.ladder side).orders := by
    change o ∈ b.lines side
    rw [hl]
    exact List.mem_cons_self
  have ho := h.holds_of_mem hmem
  have hside := h.side_of_mem hmem
  constructor
  · intro x hx
    have hsplit : (b.ladder o.side).orders = [] ++ o :: rest := by
      rw [hside]
      exact hl
    exact ((h.mem_rest_iff ho hsplit x).mp hx).2
  · intro s hs x hx hid
    have hxs : x.side = s := h.side_of_mem hx
    rw [h.eq_of_id (h.holds_of_mem hx) ho hid, hside] at hxs
    exact hs hxs.symm

theorem Departed.lines_head (hd : Departed o b b') (h : b.Sound)
    (hl : b.lines side = o :: rest) : b'.lines = b.lines.set side rest := by
  obtain ⟨hrest, hother⟩ := h.ne_head hl
  rw [hd.lines_eq h]
  funext s
  unfold Lines.erase Lines.set
  split
  · next hs =>
      rw [hs, hl, List.filter_cons_of_neg (by simp), List.filter_eq_self]
      intro x hx
      exact decide_eq_true (hrest x hx)
  · next hs =>
      rw [List.filter_eq_self]
      intro x hx
      exact decide_eq_true (hother s hs x hx)

theorem Rewritten.lines_head (hw : Rewritten o o' b b') (h : b.Sound) (hsame : o.Same o')
    (hl : b.lines side = o :: rest) : b'.lines = b.lines.set side (o' :: rest) := by
  obtain ⟨hrest, hother⟩ := h.ne_head hl
  have hmem : o ∈ b.lines side := by
    rw [hl]
    exact List.mem_cons_self
  have ho : b.Holds o := h.holds_of_mem hmem
  have hkeep (line : List Order) (hne : ∀ x ∈ line, x.id ≠ o.id) :
      line.map (fun x => if x.id = o'.id then o' else x) = line := by
    refine (List.map_congr_left fun x hx => if_neg ?_).trans (List.map_id line)
    rw [hsame.id_eq]
    exact hne x hx
  rw [hw.lines_eq h ho hsame]
  funext s
  unfold Lines.replace Lines.set
  split
  · next hs => rw [hs, hl, List.map_cons, if_pos hsame.id_eq.symm, hkeep rest hrest]
  · next hs => exact hkeep _ (hother s hs)

end Lines

end Book

end Bourse
