import Bourse.Proofs.Book.Likeness

/-!
# Twins

Two orders are each other's `Twin` if they stand alike now, however they have come there:
one may have been asked for in a larger quantity and filled in part, the other not, and
they may have come in at different times. Nothing that a book does depends on that, since
`Twin` is an `Order.Kin`. A book takes one of two twins in just as it would have taken the
other, and what it becomes differs in the twin alone, which is what `Book.Mirrors` says.
-/

namespace Bourse

/-- Two orders that differ in their histories alone. -/
structure Order.Twin (o o' : Order) : Prop where
  id_eq : o'.id = o.id
  symbol_eq : o'.symbol = o.symbol
  side_eq : o'.side = o.side
  orderType_eq : o'.orderType = o.orderType
  timeInForce_eq : o'.timeInForce = o.timeInForce
  price_eq : o'.price = o.price
  remaining_eq : o'.remaining = o.remaining
  sequence_eq : o'.sequence = o.sequence
  live_eq : o'.status.isLive = o.status.isLive

/-- The same order, unless it is the one of an identity: then a `Twin` of it. -/
def Order.Mirrors (id : OrderId) (o o' : Order) : Prop := o' = o ∨ (o.id = id ∧ o.Twin o')

/-- The same level but for a twin in the place of the order of an identity. -/
structure Level.Mirrors (id : OrderId) (l l' : Level) : Prop where
  price_eq : l'.price = l.price
  total_eq : l'.total = l.total
  orders : List.Forall₂ (Order.Mirrors id) l.orders l'.orders

/-- The same book but for a twin in the place of the order of an identity. -/
structure Book.Mirrors (id : OrderId) (b b' : Book) : Prop where
  symbol_eq : b'.symbol = b.symbol
  index_eq : b'.index = b.index
  side_eq : ∀ side, (b'.ladder side).side = (b.ladder side).side
  levels : ∀ side, List.Forall₂ (Level.Mirrors id) (b.ladder side).levels (b'.ladder side).levels

namespace Order

variable {id : OrderId} {o o' : Order}

theorem Twin.refl (o : Order) : o.Twin o := ⟨rfl, rfl, rfl, rfl, rfl, rfl, rfl, rfl, rfl⟩

theorem Twin.kin (h : o.Twin o') : o.Kin o' :=
  ⟨h.id_eq, h.symbol_eq, h.side_eq, h.orderType_eq, h.timeInForce_eq, h.price_eq, h.remaining_eq,
    h.live_eq⟩

theorem Mirrors.twin (h : Mirrors id o o') : o.Twin o' := by
  rcases h with rfl | ⟨-, h⟩
  · exact .refl o'
  · exact h

/-- Twins stay twins if the same happens to both. -/
theorem Mirrors.stand (h : Mirrors id o o') (r : Quantity) (s : OrderStatus) :
    Mirrors id { o with remaining := r, status := s } { o' with remaining := r, status := s } := by
  rcases h with rfl | ⟨hid, h⟩
  · exact Or.inl rfl
  · exact Or.inr ⟨hid, h.id_eq, h.symbol_eq, h.side_eq, h.orderType_eq, h.timeInForce_eq,
      h.price_eq, rfl, h.sequence_eq, rfl⟩

end Order

namespace Book

variable {b b' : Book} {id : OrderId}

theorem Mirrors.refl (id : OrderId) (b : Book) : Mirrors id b b where
  symbol_eq := rfl
  index_eq := rfl
  side_eq _ := rfl
  levels _ := List.forall₂_same.mpr fun _ _ =>
    ⟨rfl, rfl, List.forall₂_same.mpr fun _ _ => Or.inl rfl⟩

/-- Books that mirror each other, as `Book.Mirrors` has it, hold orders of the same identities. -/
theorem Mirrors.has_iff (h : Mirrors id b b') (hs : b.Sound) (hs' : b'.Sound) (x : OrderId) :
    b'.Has x ↔ b.Has x := by
  have hnone : b'.index.get? x = none ↔ b.index.get? x = none := by rw [h.index_eq]
  rw [hs.index_none, hs'.index_none] at hnone
  exact not_iff_not.mp hnone

end Book

end Bourse
