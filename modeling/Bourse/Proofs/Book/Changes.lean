import Bourse.Proofs.Book.Basic

/-!
# What the operations do to a book

An operation changes one side of a book at one place, and the index with it. In a sound
book that comes to one of four things: an order has `Arrived`, one has `Departed`, one has
been `Rewritten`, or the book has `Kept` its orders and holds nothing else. The operations
are told apart by which of these they are, and by what the sum of the level at that place
does; whatever stops them, the book they leave is sound.
-/

namespace Bourse

namespace Book

/-- One side of a book has had levels exchanged as `Ladder.Exchanged` says, and the other is as it
was. -/
structure Exchanged (side : Side) (old new : List Level) (before after : Book) : Prop where
  here : Ladder.Exchanged old new (before.ladder side) (after.ladder side)
  there : after.ladder side.opposite = before.ladder side.opposite

/-- An order has been put in. -/
structure Arrived (o : Order) (before after : Book) : Prop where
  sound : after.Sound
  holds_iff : ∀ x, after.Holds x ↔ x = o ∨ before.Holds x

/-- An order has been taken out. -/
structure Departed (o : Order) (before after : Book) : Prop where
  sound : after.Sound
  holds_iff : ∀ x, after.Holds x ↔ before.Holds x ∧ x.id ≠ o.id

theorem Departed.has_iff {o : Order} {before after : Book} (h : Departed o before after)
    {id : OrderId} : after.Has id ↔ before.Has id ∧ id ≠ o.id := by
  constructor
  · rintro ⟨x, hx, rfl⟩
    obtain ⟨hbefore, hne⟩ := (h.holds_iff x).mp hx
    exact ⟨⟨x, hbefore, rfl⟩, hne⟩
  · rintro ⟨⟨x, hx, rfl⟩, hne⟩
    exact ⟨x, (h.holds_iff x).mpr ⟨hx, hne⟩, rfl⟩

/-- An order has been rewritten in its place. -/
structure Rewritten (o o' : Order) (before after : Book) : Prop where
  sound : after.Sound
  holds_iff : ∀ x, after.Holds x ↔ x = o' ∨ (before.Holds x ∧ x.id ≠ o.id)

/-- The same orders rest as before. -/
structure Kept (before after : Book) : Prop where
  sound : after.Sound
  holds_iff : ∀ x, after.Holds x ↔ before.Holds x

@[simp] theorem ladder_setLadder (b : Book) (l : Ladder) (side : Side) :
    (b.setLadder l side).ladder side = l := by
  cases side <;> rfl

@[simp] theorem ladder_setLadder_opposite (b : Book) (l : Ladder) (side : Side) :
    (b.setLadder l side).ladder side.opposite = b.ladder side.opposite := by
  cases side <;> rfl

@[simp] theorem index_setLadder (b : Book) (l : Ladder) (side : Side) :
    (b.setLadder l side).index = b.index := by
  cases side <;> rfl

/-- The index has no part in what the ladders are. -/
@[simp] theorem ladder_index (b : Book) (t : Table OrderId Place) (side : Side) :
    ({ b with index := t } : Book).ladder side = b.ladder side := by
  cases side <;> rfl

section Changes

variable {b b' : Book} {o o' : Order} {side : Side} {old new : List Level} {xs ys : List Order}

theorem Exchanged.ladder_of_ne (h : Exchanged side old new b b') {s : Side} (hs : s ≠ side) :
    b'.ladder s = b.ladder s := by
  have hopp : s = side.opposite := by cases s <;> cases side <;> first | rfl | exact absurd rfl hs
  rw [hopp]
  exact h.there

theorem Exchanged.side_eq (h : Exchanged side old new b b') (hb : b.Sound) (s : Side) :
    (b'.ladder s).side = s := by
  by_cases hs : s = side
  · rw [hs, h.here.side_eq, hb.side_eq]
  · rw [h.ladder_of_ne hs, hb.side_eq]

theorem Exchanged.ladder (h : Exchanged side old new b b') (hb : b.Sound)
    (hnew : ∀ level ∈ new, level.Sound side) (s : Side) : (b'.ladder s).Sound := by
  by_cases hs : s = side
  · subst hs
    refine h.here.sound (hb.ladder s) fun level hl => ?_
    rw [hb.side_eq]
    exact hnew level hl
  · rw [h.ladder_of_ne hs]
    exact hb.ladder s

/-- An order that finds its place in a ladder and in the index has `Arrived`. -/
theorem Sound.arrived (h : b.Sound) (hx : Exchanged o.side old new b b')
    (hold : old.flatMap Level.orders = xs ++ ys)
    (hnew : new.flatMap Level.orders = xs ++ o :: ys)
    (hsound : ∀ level ∈ new, level.Sound o.side) {place : Place} (hplace : o.place? = some place)
    (hindex : b'.index = b.index.insert o.id place) (hfree : ¬ b.Has o.id) :
    Arrived o b b' := by
  have hholds (x : Order) : b'.Holds x ↔ x = o ∨ b.Holds x := by
    unfold Holds
    by_cases hs : x.side = o.side
    · obtain ⟨front, back, hb, ha⟩ := hx.here.orders
      rw [hs, ha, hb, hold, hnew]
      simp only [List.mem_append, List.mem_cons]
      constructor
      · rintro (hm | (hm | hm | hm) | hm) <;> simp [hm]
      · rintro (hm | hm | (hm | hm) | hm) <;> simp [hm]
    · rw [hx.ladder_of_ne hs]
      constructor
      · exact Or.inr
      · rintro (rfl | hm)
        · exact absurd rfl hs
        · exact hm
  refine ⟨⟨hx.side_eq h, hx.ladder h hsound, fun id p => ?_⟩, hholds⟩
  rw [hindex]
  by_cases hid : id = o.id
  · subst hid
    rw [Table.get?_insert_self]
    constructor
    · rintro heq
      cases heq
      exact ⟨o, (hholds o).mpr (Or.inl rfl), rfl, hplace⟩
    · rintro ⟨x, hm, hid, hp⟩
      rcases (hholds x).mp hm with rfl | hm
      · rw [← hp, hplace]
      · exact absurd ⟨x, hm, hid⟩ hfree
  · rw [Table.get?_insert_of_ne _ hid, h.index]
    constructor
    · rintro ⟨x, hm, hxid, hp⟩
      exact ⟨x, (hholds x).mpr (Or.inr hm), hxid, hp⟩
    · rintro ⟨x, hm, hxid, hp⟩
      rcases (hholds x).mp hm with rfl | hm
      · exact absurd hxid.symm hid
      · exact ⟨x, hm, hxid, hp⟩

/-- What rests beside an order is what rests under other identities. -/
theorem Sound.mem_rest_iff (h : b.Sound) (ho : b.Holds o)
    (hl : (b.ladder o.side).orders = xs ++ o :: ys) (x : Order) :
    x ∈ xs ++ ys ↔ x ∈ (b.ladder o.side).orders ∧ x.id ≠ o.id := by
  have hsub : x ∈ xs ++ ys → x ∈ (b.ladder o.side).orders := by
    rw [hl]
    intro hm
    rcases List.mem_append.mp hm with hm | hm
    · exact List.mem_append_left _ hm
    · exact List.mem_append_right _ (List.mem_cons_of_mem _ hm)
  constructor
  · intro hm
    refine ⟨hsub hm, fun hid => h.not_mem_rest hl ?_⟩
    rw [← h.eq_of_id (h.holds_of_mem (hsub hm)) ho hid]
    exact hm
  · rintro ⟨hm, hid⟩
    rw [hl] at hm
    rcases List.mem_append.mp hm with hm | hm
    · exact List.mem_append_left _ hm
    · rcases List.mem_cons.mp hm with rfl | hm
      · exact absurd rfl hid
      · exact List.mem_append_right _ hm

/-- What a book `Holds` after the levels at the place of an order have been exchanged: what has been
put in its place, and whatever rests under other identities. -/
theorem Sound.holds_exchanged (h : b.Sound) (ho : b.Holds o) (hx : Exchanged o.side old new b b')
    (hold : old.flatMap Level.orders = xs ++ o :: ys) (put : List Order)
    (hnew : new.flatMap Level.orders = xs ++ (put ++ ys)) (hside : ∀ x ∈ put, x.side = o.side)
    (x : Order) : b'.Holds x ↔ x ∈ put ∨ (b.Holds x ∧ x.id ≠ o.id) := by
  unfold Holds
  by_cases hs : x.side = o.side
  · obtain ⟨front, back, hb, ha⟩ := hx.here.orders
    rw [hold] at hb
    rw [hnew] at ha
    have hsplit : (b.ladder o.side).orders = (front ++ xs) ++ o :: (ys ++ back) := by
      simpa using hb
    rw [hs, ha, ← h.mem_rest_iff ho hsplit]
    simp only [List.mem_append]
    constructor
    · rintro (hm | (hm | hm | hm) | hm) <;> simp [hm]
    · rintro (hm | (hm | hm) | (hm | hm)) <;> simp [hm]
  · rw [hx.ladder_of_ne hs]
    constructor
    · refine fun hm => Or.inr ⟨hm, fun hid => hs ?_⟩
      rw [h.eq_of_id hm ho hid]
    · rintro (hm | ⟨hm, -⟩)
      · exact absurd (hside x hm) hs
      · exact hm

/-- An order that is gone from its ladder and from the index has `Departed`. -/
theorem Sound.departed (h : b.Sound) (ho : b.Holds o) (hx : Exchanged o.side old new b b')
    (hold : old.flatMap Level.orders = xs ++ o :: ys)
    (hnew : new.flatMap Level.orders = xs ++ ys)
    (hsound : ∀ level ∈ new, level.Sound o.side) (hindex : b'.index = b.index.erase o.id) :
    Departed o b b' := by
  have hholds (x : Order) : b'.Holds x ↔ b.Holds x ∧ x.id ≠ o.id := by
    simpa using h.holds_exchanged ho hx hold [] hnew (by simp) x
  refine ⟨⟨hx.side_eq h, hx.ladder h hsound, fun id p => ?_⟩, hholds⟩
  rw [hindex]
  by_cases hid : id = o.id
  · subst hid
    rw [Table.get?_erase_self]
    constructor
    · intro hnone
      cases hnone
    · rintro ⟨x, hm, hid, -⟩
      exact absurd hid ((hholds x).mp hm).2
  · rw [Table.get?_erase_of_ne _ hid, h.index]
    constructor
    · rintro ⟨x, hm, rfl, hp⟩
      exact ⟨x, (hholds x).mpr ⟨hm, hid⟩, rfl, hp⟩
    · rintro ⟨x, hm, hxid, hp⟩
      exact ⟨x, ((hholds x).mp hm).1, hxid, hp⟩

/-- An order that has changed where it stands has been `Rewritten`. -/
theorem Sound.rewritten (h : b.Sound) (ho : b.Holds o) (hx : Exchanged o.side old new b b')
    (hold : old.flatMap Level.orders = xs ++ o :: ys)
    (hnew : new.flatMap Level.orders = xs ++ o' :: ys) (hsame : o.Same o')
    (hsound : ∀ level ∈ new, level.Sound o.side) (hindex : b'.index = b.index) :
    Rewritten o o' b b' := by
  have hholds (x : Order) : b'.Holds x ↔ x = o' ∨ (b.Holds x ∧ x.id ≠ o.id) := by
    simpa using h.holds_exchanged ho hx hold [o'] hnew (by simpa using hsame.side_eq) x
  refine ⟨⟨hx.side_eq h, hx.ladder h hsound, fun id p => ?_⟩, hholds⟩
  have hplace : o'.place? = o.place? := by
    unfold Order.place?
    rw [hsame.price_eq, hsame.side_eq, hsame.sequence_eq]
  rw [hindex, h.index]
  constructor
  · rintro ⟨x, hm, hxid, hp⟩
    by_cases hid : x.id = o.id
    · obtain rfl := h.eq_of_id hm ho hid
      exact ⟨o', (hholds o').mpr (Or.inl rfl), hsame.id_eq.trans hxid, hplace.trans hp⟩
    · exact ⟨x, (hholds x).mpr (Or.inr ⟨hm, hid⟩), hxid, hp⟩
  · rintro ⟨x, hm, hxid, hp⟩
    rcases (hholds x).mp hm with rfl | ⟨hm, -⟩
    · exact ⟨o, ho, hsame.id_eq.symm.trans hxid, hplace.symm.trans hp⟩
    · exact ⟨x, hm, hxid, hp⟩

/-- A level that is opened and stays empty changes nothing. -/
theorem Sound.kept (h : b.Sound) (hx : Exchanged side old new b b')
    (horders : new.flatMap Level.orders = old.flatMap Level.orders)
    (hsound : ∀ level ∈ new, level.Sound side) (hindex : b'.index = b.index) : Kept b b' := by
  have hholds (x : Order) : b'.Holds x ↔ b.Holds x := by
    unfold Holds
    by_cases hs : x.side = side
    · obtain ⟨front, back, hb, ha⟩ := hx.here.orders
      rw [hs, ha, hb, horders]
    · rw [hx.ladder_of_ne hs]
  refine ⟨⟨hx.side_eq h, hx.ladder h hsound, fun id p => ?_⟩, hholds⟩
  rw [hindex, h.index]
  simp only [hholds]

end Changes

end Book

end Bourse
