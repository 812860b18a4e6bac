import Bourse.Proofs.Matching

/-!
# Shares of what came in

A trade takes the smaller of what is left of two orders and leaves the rest of both. So
what is true of the quantities that have come in, and of the rest when one of them is
taken from another (`Quantity.Inherited`), is true of every quantity that is traded and of
all that is left (`Trades.inherits`). The bound on the size of an order is of this kind,
and so is its grid as long as differences are exact.
-/

namespace Bourse

/-- What holds of two quantities holds of the rest when one is taken from the other. -/
def Quantity.Inherited (R : Quantity → Prop) : Prop :=
  ∀ {a b c : Quantity}, R a → R b → 0 < b → b ≤ a → a.sub b = .ok c → R c

variable {R : Quantity → Prop}

theorem Order.fill_inherits (hR : Quantity.Inherited R) {o o' : Order} {q : Quantity}
    (ho : R o.remaining) (hq : R q) (hf : o.fill q = .ok o') : R o'.remaining := by
  obtain ⟨hpos, hle, -, r, hr, rfl⟩ := fill_eq_ok hf
  exact hR ho hq hpos hle hr

/-- What is left of every order that the book `Holds` is of a kind. -/
def Book.Shares (R : Quantity → Prop) (b : Book) : Prop := ∀ o, b.Holds o → R o.remaining

namespace Encounter

variable {e e' : Encounter} {fill : Fill} {level : Level} {post : List Level} {maker : Order}
  {ys : List Order} {total : Quantity} {moments : List (Encounter × Fill)}

theorem Deal.inherits (h : Deal e fill e' level post maker ys total)
    (hR : Quantity.Inherited R) (hs : e.book.Sound) (hb : e.book.Shares R)
    (hin : R e.incoming.remaining) :
    R fill.quantity ∧ e'.book.Shares R ∧ R e'.incoming.remaining := by
  have hmaker := hb maker (h.holds hs)
  have hdealt : R fill.quantity := by
    rw [h.quantity_eq, dealt, Decimal.smaller]
    split
    · exact hmaker
    · exact hin
  refine ⟨hdealt, fun x hx => ?_, Order.fill_inherits hR hin hdealt h.incoming_fill⟩
  rcases h.rest hx with rfl | ⟨hx, -⟩
  · exact Order.fill_inherits hR hmaker hdealt h.maker_fill
  · exact hb x hx

theorem Trades.inherits (h : Trades e moments e') (hR : Quantity.Inherited R)
    (hs : e.book.Sound) (hb : e.book.Shares R) (hin : R e.incoming.remaining) :
    (∀ m ∈ moments, R m.2.quantity) ∧ e'.book.Shares R ∧ R e'.incoming.remaining := by
  induction h with
  | none => exact ⟨fun m hm => (by cases hm), hb, hin⟩
  | some hstep _ ih =>
      obtain ⟨_, _, _, _, _, hdeal⟩ := hstep.deal hs
      obtain ⟨hdealt, hb₁, hin₁⟩ := hdeal.inherits hR hs hb hin
      obtain ⟨hrest, hend⟩ := ih (hdeal.worn hs).sound hb₁ hin₁
      exact ⟨List.forall_mem_cons.mpr ⟨hdealt, hrest⟩, hend⟩

/-- Each of the `Trades` is made at the price of an order that rested when the matching began, and
for a positive quantity. -/
theorem Trades.terms (h : Trades e moments e') (hs : e.book.Sound) {m : Encounter × Fill}
    (hm : m ∈ moments) :
    0 < m.2.quantity ∧
      ∃ o price, e.book.Holds o ∧ o.price = .some price ∧ m.2.price.SameValue price := by
  obtain ⟨hw, -, next, hstep⟩ := h.moment hs hm
  obtain ⟨level, post, maker, ys, total, hdeal⟩ := hstep.deal hw.sound
  obtain ⟨-, limit, hlimit, hprice, -⟩ := hdeal.first hw.sound
  obtain ⟨o, ho, hfilled⟩ := hw.from_fills maker (hdeal.holds hw.sound)
  obtain ⟨hpos, -⟩ := Order.fill_eq_ok hdeal.maker_fill
  exact ⟨hpos, o, limit, ho, hfilled.same.price_eq.symm.trans hlimit, hprice⟩

end Encounter

end Bourse
