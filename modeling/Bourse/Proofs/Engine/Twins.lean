import Bourse.Proofs.Book.Twins
import Bourse.Proofs.Engine.Likeness
import Bourse.Proofs.Engine.Routed

/-!
# Twins at a desk

To be twins is a likeness, `Likeness.twins`. So if two twins are executed at desks with
the same book, the executions tell the same story and leave the same book, but for what
they say and keep of the twins themselves (`Executed.echoes`).
-/

namespace Bourse

/-- Two updates that say the same, unless they are of an identity: then they may differ in how much
of it has been `filled`. -/
structure OrderUpdate.Mirrors (id : OrderId) (u u' : OrderUpdate) : Prop where
  id_eq : u'.orderId = u.orderId
  symbol_eq : u'.symbol = u.symbol
  remaining_eq : u'.remaining = u.remaining
  reason_eq : u'.rejectReason = u.rejectReason
  live_eq : u'.status.isLive = u.status.isLive
  same : u.orderId ≠ id → u'.status = u.status ∧ u'.filled = u.filled

/-- Two events that tell the same, but for the history of the order of an identity. -/
inductive Event.Mirrors (id : OrderId) : Event → Event → Prop
  | trade {t t' : Trade} : t.Alike t' → Mirrors id (.trade t) (.trade t')
  | update {u u' : OrderUpdate} : u.Mirrors id u' → Mirrors id (.update u) (.update u')

theorem OrderUpdate.Shows.mirrors {u u' : OrderUpdate} {o o' : Order} {id : OrderId}
    (hu : u.Shows o) (hu' : u'.Shows o') (hr : u'.rejectReason = u.rejectReason)
    (h : o.Mirrors id o') : u.Mirrors id u' := by
  rcases h with rfl | ⟨hid, ht⟩
  · refine ⟨hu'.id_eq.trans hu.id_eq.symm, hu'.symbol_eq.trans hu.symbol_eq.symm,
      hu'.remaining_eq.trans hu.remaining_eq.symm, hr, ?_, fun _ => ?_⟩
    · rw [hu'.status_eq, hu.status_eq]
    · have hfilled := hu'.filled_eq.symm.trans hu.filled_eq
      injection hfilled with hfilled
      exact ⟨hu'.status_eq.trans hu.status_eq.symm, hfilled⟩
  · refine ⟨?_, ?_, ?_, hr, ?_, fun hne => absurd (hu.id_eq.trans hid) hne⟩
    · rw [hu'.id_eq, hu.id_eq, ht.id_eq]
    · rw [hu'.symbol_eq, hu.symbol_eq, ht.symbol_eq]
    · rw [hu'.remaining_eq, hu.remaining_eq, ht.remaining_eq]
    · rw [hu'.status_eq, hu.status_eq, ht.live_eq]

theorem OrderUpdate.mirrors_of_ofOrder {o o' : Order} {now now' : Timestamp} {n n' : Nat}
    {u u' : OrderUpdate} {id : OrderId} (h : o.Mirrors id o')
    (hu : OrderUpdate.ofOrder o now n = .ok u) (hu' : OrderUpdate.ofOrder o' now' n' = .ok u') :
    u.Mirrors id u' := by
  refine (shows_of_ofOrder hu).mirrors (shows_of_ofOrder hu') ?_ h
  rw [(Desk.ofOrder_eq_ok hu).2.2.2, (Desk.ofOrder_eq_ok hu').2.2.2]

/-- Orders are alike if they are the same, unless they are of an identity: then if they are each
other's `Twin`. -/
def Likeness.twins (id : OrderId) : Likeness where
  Alike := Order.Mirrors id
  Tells := OrderUpdate.Mirrors id
  refl _ := Or.inl rfl
  kin h := h.twin.kin
  stand h := h.stand
  tells := OrderUpdate.mirrors_of_ofOrder

namespace Book

variable {b b' : Book} {id : OrderId}

theorem Like.mirrors (h : b.Like (.twins id) b') (hindex : b'.index = b.index) :
    b.Mirrors id b' where
  symbol_eq := h.symbol_eq
  index_eq := hindex
  side_eq := h.side_eq
  levels side := (h.levels side).imp fun _ _ hl => ⟨hl.price_eq, hl.total_eq, hl.orders⟩

theorem Mirrors.like (h : b.Mirrors id b') : b.Like (.twins id) b' where
  symbol_eq := h.symbol_eq
  side_eq := h.side_eq
  levels side := (h.levels side).imp fun _ _ hl => ⟨hl.price_eq, hl.total_eq, hl.orders⟩

theorem Mirrors.isCrossed_eq (h : b.Mirrors id b') : b'.isCrossed = b.isCrossed :=
  h.like.isCrossed_eq

end Book

namespace Desk

variable {world world' : Surroundings} {o x : Order} {d d' c c' : Desk} {r r' : OrderResult}

/-- Two executions that tell the same and leave the same, but for the history of the order of an
identity. -/
structure Echoes (id : OrderId) (r : OrderResult) (d : Desk) (r' : OrderResult) (d' : Desk) :
    Prop where
  order : r.order.Twin r'.order
  trades : List.Forall₂ Trade.Alike r.trades r'.trades
  events : List.Forall₂ (Event.Mirrors id) d.emitted d'.emitted
  book : Book.Mirrors id d.book d'.book

theorem Executed.echoes (h : Executed world o d r d') (h' : Executed world' x c r' c')
    (ht : o.Twin x) (hbook : c.book = d.book) (hs : d.book.Sound) (hd : d.emitted = [])
    (hc : c.emitted = []) : Echoes o.id r d' r' c' := by
  obtain ⟨hlike, hindex⟩ := h.like (L := .twins o.id) h' (Or.inr ⟨rfl, ht⟩) hbook hs hd hc
    (Order.abreast_of_eq ht.sequence_eq _)
  refine ⟨hlike.order.twin, hlike.trades, hlike.events.imp fun _ _ hev => ?_,
    hlike.book.mirrors (hindex ht.sequence_eq)⟩
  cases hev with
  | trade ht => exact .trade ht
  | update hu => exact .update hu

/-- If one event more had been numbered before, then one more has been afterwards. -/
theorem Executed.counters_eq (h : Executed world o d r d') (h' : Executed world' x c r' c')
    (ht : o.Twin x) (hbook : c.book = d.book) (hd : d.emitted = []) (hc : c.emitted = [])
    (hlength : d'.emitted.length = c'.emitted.length)
    (hbefore : c.counters = { d.counters with events := d.counters.events + 1 }) :
    c'.counters = { d'.counters with events := d'.counters.events + 1 } := by
  obtain ⟨harrivals, hevents, hmatchings⟩ :=
    h.counters_like h' ht.kin hbook (by rw [hd, hc, hlength])
  rw [hbefore] at harrivals hevents hmatchings
  dsimp only at harrivals hevents hmatchings
  refine Counters.ext ?_ ?_ ?_ <;> dsimp only <;> omega

/-- Where one of two twins is `Executed`, the other is. -/
theorem Executed.twin_isOk (h : Executed world o d r d') (world' : Surroundings) (ht : o.Twin x)
    (hbook : c.book = d.book) (hent : Enters x c) (hsized : ∀ y, c.book.Holds y → y.Sized) :
    ∃ r' c', execute .priceTime world' x c = .ok r' c' :=
  h.like_isOk (L := .twins o.id) world' (Or.inr ⟨rfl, ht⟩) hbook hent hsized
    (Order.abreast_of_eq ht.sequence_eq _)

end Desk

end Bourse
