import Bourse.Book.Basic
import Bourse.Proofs.Book.Ladder

/-!
# Books and their index

A book is `Sound` when both ladders are and the index says of each resting order where it
is, and of nothing else. Then an identity rests once at most (`Sound.eq_of_id`), and the
book can be looked at as the set of the orders it `Holds`: an order arrives, or departs,
or is rewritten in its place, and the rest is as it was. Each operation is one of these,
with the levels it exchanges spelled out, and the arithmetic of the level decides whether
it stops at a fault. It may stop after the change; what is left behind is sound all the
same.
-/

namespace Bourse

/-- What the index says of an order that rests. -/
def Order.place? (o : Order) : Option Place := o.price.map fun p => ⟨o.side, p, o.sequence⟩

namespace Book

/-- The order rests in the book. -/
def Holds (b : Book) (o : Order) : Prop := o ∈ (b.ladder o.side).orders

/-- The book `Holds` some order under the identity. -/
def Has (b : Book) (id : OrderId) : Prop := ∃ o, b.Holds o ∧ o.id = id

/-- Every order of the book can still trade. -/
def Lively (b : Book) : Prop := ∀ o, b.Holds o → o.status.isLive = true ∧ 0 < o.remaining

/-- Two `Ladder.Sound` ladders, and an index that tells where everything is. -/
structure Sound (b : Book) : Prop where
  side_eq : ∀ side, (b.ladder side).side = side
  ladder : ∀ side, (b.ladder side).Sound
  index : ∀ id place, b.index.get? id = some place ↔
    ∃ o, b.Holds o ∧ o.id = id ∧ o.place? = some place

theorem not_holds_empty (symbol : String) (o : Order) : ¬ (Book.empty symbol).Holds o := by
  intro ho
  unfold Holds at ho
  cases hside : o.side <;> rw [hside] at ho <;> cases ho

theorem sound_empty (symbol : String) : (Book.empty symbol).Sound where
  side_eq side := by cases side <;> rfl
  ladder side := by cases side <;> exact Ladder.sound_empty _
  index id place := by
    constructor
    · intro h
      cases h
    · rintro ⟨o, ho, -⟩
      exact absurd ho (not_holds_empty _ _)

section Sound

variable {b : Book} {o o' : Order} {side : Side}

theorem Sound.side_of_mem (h : b.Sound) (ho : o ∈ (b.ladder side).orders) : o.side = side := by
  obtain ⟨_, -, hp⟩ := (h.ladder side).standsAt ho
  rw [hp.side_eq, h.side_eq]

theorem Sound.holds_of_mem (h : b.Sound) (ho : o ∈ (b.ladder side).orders) : b.Holds o := by
  unfold Holds
  rw [h.side_of_mem ho]
  exact ho

theorem Sound.standsAt (h : b.Sound) (ho : b.Holds o) :
    ∃ price, o.price = some price ∧ o.StandsAt o.side price := by
  obtain ⟨price, hprice, hp⟩ := (h.ladder o.side).standsAt ho
  rw [h.side_eq] at hp
  exact ⟨price, hprice, hp⟩

theorem Sound.index_eq (h : b.Sound) (ho : b.Holds o) {price : Price}
    (hp : o.price = some price) : b.index.get? o.id = some ⟨o.side, price, o.sequence⟩ :=
  (h.index _ _).mpr ⟨o, ho, rfl, by rw [Order.place?, hp]; rfl⟩

/-- An order stands in front of itself nowhere. -/
theorem Sound.not_mem_rest (h : b.Sound) {xs ys : List Order}
    (hl : (b.ladder side).orders = xs ++ o :: ys) : o ∉ xs ++ ys := by
  have hline := (h.ladder side).before
  rw [hl] at hline
  obtain ⟨-, hmid, hcross⟩ := List.pairwise_append.mp hline
  have hself : ¬ Order.Before (b.ladder side).side o o := by
    rintro ⟨p, p', hp, hp', hlt⟩
    rw [hp] at hp'
    cases hp'
    omega
  intro hm
  rcases List.mem_append.mp hm with hm | hm
  · exact hself (hcross o hm o List.mem_cons_self)
  · exact hself ((List.pairwise_cons.mp hmid).1 o hm)

/-- An identity rests once at most. -/
theorem Sound.eq_of_id (h : b.Sound) (ho : b.Holds o) (ho' : b.Holds o') (hid : o.id = o'.id) :
    o = o' := by
  obtain ⟨p, hp, -⟩ := h.standsAt ho
  obtain ⟨p', hp', -⟩ := h.standsAt ho'
  have hplace := h.index_eq ho hp
  rw [hid, h.index_eq ho' hp'] at hplace
  injection hplace with hplace
  injection hplace with hside hprice hseq
  -- Two orders at one price with one number cannot both be in line.
  have hmem : o' ∈ (b.ladder o.side).orders := hside ▸ ho'
  have hline := (h.ladder o.side).before
  have hclash : ∀ x y : Order, x.price = some p → y.price = some p → x.sequence = y.sequence →
      ¬ Order.Before (b.ladder o.side).side x y := by
    rintro x y hx hy hs ⟨q, q', hq, hq', hlt⟩
    rw [hx] at hq
    rw [hy] at hq'
    cases hq
    cases hq'
    omega
  obtain ⟨xs, ys, hsplit⟩ := List.append_of_mem ho
  rw [hsplit] at hline hmem
  obtain ⟨-, hmid, hcross⟩ := List.pairwise_append.mp hline
  rcases List.mem_append.mp hmem with hm | hm
  · exact absurd (hcross o' hm o List.mem_cons_self)
      (hclash o' o (hprice ▸ hp') hp hseq)
  · rcases List.mem_cons.mp hm with rfl | hm
    · rfl
    · exact absurd ((List.pairwise_cons.mp hmid).1 o' hm)
        (hclash o o' hp (hprice ▸ hp') hseq.symm)

theorem Sound.get?_eq (h : b.Sound) (ho : b.Holds o) : b.get? o.id = some o := by
  obtain ⟨p, hp, -⟩ := h.standsAt ho
  obtain ⟨pre, level, post, xs, ys, hl, hx⟩ := Ladder.exists_place ho
  have hlevel := (h.ladder o.side).at hl
  have hmem : level ∈ (b.ladder o.side).levels := by
    rw [hl]
    exact List.mem_append_right _ List.mem_cons_self
  unfold get?
  rw [h.index_eq ho hp]
  change ((b.ladder o.side).level? p).bind (fun level => level.find? o.sequence) = some o
  rw [(h.ladder o.side).level?_eq hmem (hlevel.sameValue hx hp)]
  exact hlevel.find? hx

theorem Sound.get?_iff (h : b.Sound) {id : OrderId} :
    b.get? id = some o ↔ b.Holds o ∧ o.id = id := by
  constructor
  · intro hget
    cases hplace : b.index.get? id with
    | none =>
        unfold get? at hget
        rw [hplace] at hget
        cases hget
    | some place =>
        obtain ⟨x, hx, rfl, -⟩ := (h.index _ _).mp hplace
        rw [h.get?_eq hx] at hget
        cases hget
        exact ⟨hx, rfl⟩
  · rintro ⟨ho, rfl⟩
    exact h.get?_eq ho

theorem Sound.index_none (h : b.Sound) {id : OrderId} :
    b.index.get? id = none ↔ ¬ b.Has id := by
  constructor
  · rintro hnone ⟨o, ho, rfl⟩
    obtain ⟨p, hp, -⟩ := h.standsAt ho
    rw [h.index_eq ho hp] at hnone
    cases hnone
  · intro hfree
    cases hplace : b.index.get? id with
    | none => rfl
    | some place =>
        obtain ⟨x, hx, hid, -⟩ := (h.index _ _).mp hplace
        exact absurd ⟨x, hx, hid⟩ hfree

theorem Sound.contains_iff (h : b.Sound) {id : OrderId} :
    b.contains id = true ↔ b.Has id := by
  unfold contains Table.contains
  constructor
  · intro hsome
    obtain ⟨place, hplace⟩ := Option.isSome_iff_exists.mp hsome
    obtain ⟨o, ho, hid, -⟩ := (h.index _ _).mp hplace
    exact ⟨o, ho, hid⟩
  · rintro ⟨o, ho, rfl⟩
    obtain ⟨p, hp, -⟩ := h.standsAt ho
    rw [h.index_eq ho hp]
    rfl

end Sound

end Book

end Bourse
