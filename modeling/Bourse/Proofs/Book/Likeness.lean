import Mathlib.Data.List.Forall2
import Bourse.Event
import Bourse.Proofs.Book.Operations

/-!
# Likenesses

What a book and a matching do goes by some of what orders are, and leaves the rest alone:
nothing depends on how an order came to what is left of it, or on which of two numbers it
has if no other order stands between them. A `Likeness` is a relation of orders that agree
in what counts, which is `Order.Kin` at least. A book takes one of two orders that are
alike in just as it would have taken the other, and what it becomes is alike
(`insert_like`).
-/

namespace Bourse

/-- Two orders that agree in all that a matching goes by. -/
structure Order.Kin (o o' : Order) : Prop where
  id_eq : o'.id = o.id
  symbol_eq : o'.symbol = o.symbol
  side_eq : o'.side = o.side
  orderType_eq : o'.orderType = o.orderType
  timeInForce_eq : o'.timeInForce = o.timeInForce
  price_eq : o'.price = o.price
  remaining_eq : o'.remaining = o.remaining
  live_eq : o'.status.isLive = o.status.isLive

/-- A relation of orders that a matching cannot tell apart, and of what is told of them. It stays
between orders to which the same happens. -/
structure Likeness where
  Alike : Order → Order → Prop
  Tells : OrderUpdate → OrderUpdate → Prop
  refl : ∀ o, Alike o o
  kin : ∀ {o o'}, Alike o o' → o.Kin o'
  stand : ∀ {o o'}, Alike o o' → ∀ r s,
    Alike { o with remaining := r, status := s } { o' with remaining := r, status := s }
  tells : ∀ {o o' : Order} {now now' : Timestamp} {n n' : Nat} {u u' : OrderUpdate}, Alike o o' →
    OrderUpdate.ofOrder o now n = .ok u → OrderUpdate.ofOrder o' now' n' = .ok u' → Tells u u'

/-- Of whatever of these orders, both stand in front or both behind, or both have its number. -/
def Order.Abreast (o o' : Order) (orders : List Order) : Prop :=
  ∀ x ∈ orders, (o'.sequence < x.sequence ↔ o.sequence < x.sequence) ∧
    (x.sequence = o'.sequence ↔ x.sequence = o.sequence)

variable {L : Likeness} {o o' : Order}

theorem Order.abreast_of_eq (h : o'.sequence = o.sequence) (orders : List Order) :
    o.Abreast o' orders := by
  intro x _
  rw [h]
  exact ⟨Iff.rfl, Iff.rfl⟩

/-- Two orders that both come after all others are `Abreast`. -/
theorem Order.abreast_of_late {orders : List Order} (h : ∀ x ∈ orders, x.sequence < o.sequence)
    (h' : ∀ x ∈ orders, x.sequence < o'.sequence) : o.Abreast o' orders := by
  intro x hx
  have hlt := h x hx
  have hlt' := h' x hx
  omega

theorem Order.Abreast.sublist {orders orders' : List Order} (h : o.Abreast o' orders)
    (hsub : ∀ x ∈ orders', x ∈ orders) : o.Abreast o' orders' :=
  fun x hx => h x (hsub x hx)

namespace Level

/-- The same price and sum, and orders that are alike one by one. -/
structure Like (L : Likeness) (l l' : Level) : Prop where
  price_eq : l'.price = l.price
  total_eq : l'.total = l.total
  orders : List.Forall₂ L.Alike l.orders l'.orders

variable {l l₁ : Level}

theorem Like.refl (L : Likeness) (l : Level) : l.Like L l :=
  ⟨rfl, rfl, List.forall₂_same.mpr fun o _ => L.refl o⟩

theorem enqueue_like {orders : List Order} (h : L.Alike o o') (ha : o.Abreast o' orders) :
    List.Forall₂ L.Alike (enqueue o orders) (enqueue o' orders) := by
  induction orders with
  | nil => exact .cons h .nil
  | cons x rest ih =>
      obtain ⟨hx, hrest⟩ := List.forall_mem_cons.mp ha
      unfold enqueue
      by_cases hlt : o.sequence < x.sequence
      · rw [if_pos hlt, if_pos (hx.1.mpr hlt)]
        exact .cons h (List.forall₂_same.mpr fun y _ => L.refl y)
      · rw [if_neg hlt, if_neg (mt hx.1.mp hlt)]
        exact .cons (L.refl x) (ih hrest)

theorem push_like (h : L.Alike o o') (ha : o.Abreast o' l.orders) {u : Unit}
    (hrun : push o l = .ok u l₁) : ∃ l₂, push o' l = .ok u l₂ ∧ l₁.Like L l₂ := by
  have hnew : (l.find? o'.sequence).isSome = (l.find? o.sequence).isSome := by
    unfold find?
    rw [Bool.eq_iff_iff]
    simp only [List.find?_isSome, decide_eq_true_eq]
    exact exists_congr fun x => and_congr_right fun hx => (ha x hx).2
  rw [push_run] at hrun ⊢
  rw [(L.kin h).remaining_eq, hnew]
  split at hrun
  · cases hrun
  · next hpos =>
      split at hrun
      · cases hrun
      · next hfresh =>
          rw [if_neg hpos, if_neg hfresh]
          split at hrun
          · cases hrun
          · cases hrun
            exact ⟨_, rfl, rfl, rfl, enqueue_like h ha⟩

end Level

namespace Ladder

variable {price : Price} {u : Unit}

theorem pushAt_like (h : L.Alike o o') {side : Side} {levels levels₁ : List Level}
    (ha : o.Abreast o' (levels.flatMap Level.orders))
    (hrun : pushAt side price o levels levels = .ok u levels₁) :
    ∃ levels₂, pushAt side price o' levels levels = .ok u levels₂ ∧
      List.Forall₂ (Level.Like L) levels₁ levels₂ := by
  have hsame (ls : List Level) : List.Forall₂ (Level.Like L) ls ls :=
    List.forall₂_same.mpr fun l _ => Level.Like.refl L l
  -- Wherever the level is, what becomes of it is all that can differ.
  have hlevel {level : Level} {put : Level → List Level} {s after : List Level}
      (ha : o.Abreast o' level.orders)
      (hput : ∀ {x y}, x.Like L y → List.Forall₂ (Level.Like L) (put x) (put y))
      (hfocus : Attempt.focus level put (Level.push o) s = .ok u after) :
      ∃ after', Attempt.focus level put (Level.push o') s = .ok u after' ∧
        List.Forall₂ (Level.Like L) after after' := by
    rw [Attempt.run_focus] at hfocus
    split at hfocus
    · next l₁ hpush =>
        cases hfocus
        obtain ⟨l₂, hpush', hm⟩ := Level.push_like h ha hpush
        exact ⟨put l₂, Attempt.focus_ok hpush' s, hput hm⟩
    · cases hfocus
  have hnone : o.Abreast o' (Level.empty price).orders := fun x hx => by cases hx
  induction levels generalizing levels₁ with
  | nil =>
      unfold pushAt at hrun ⊢
      exact hlevel hnone (fun hm => .cons hm .nil) hrun
  | cons level rest ih =>
      rw [List.flatMap_cons] at ha
      unfold pushAt at hrun ⊢
      split at hrun
      · next hprice =>
          rw [if_pos hprice]
          exact hlevel (ha.sublist fun x => List.mem_append_left _)
            (fun hm => .cons hm (hsame rest)) hrun
      · next hprice =>
          rw [if_neg hprice]
          split at hrun
          · next hbetter =>
              rw [if_pos hbetter]
              exact hlevel hnone (fun hm => .cons hm (hsame (level :: rest))) hrun
          · next hbetter =>
              rw [if_neg hbetter]
              rw [Attempt.run_focus] at hrun
              split at hrun
              · next rest₁ hpush =>
                  cases hrun
                  obtain ⟨rest₂, hpush', hm⟩ :=
                    ih (ha.sublist fun x => List.mem_append_right _) hpush
                  exact ⟨_, Attempt.focus_ok hpush' _, .cons (Level.Like.refl L _) hm⟩
              · cases hrun

theorem push_like (h : L.Alike o o') {l l₁ : Ladder} (ha : o.Abreast o' l.orders)
    (hrun : push price o l = .ok u l₁) :
    ∃ l₂, push price o' l = .ok u l₂ ∧ l₂.side = l₁.side ∧
      List.Forall₂ (Level.Like L) l₁.levels l₂.levels := by
  rw [push_run] at hrun ⊢
  split at hrun
  · next levels₁ hpush =>
      cases hrun
      obtain ⟨levels₂, hpush', hm⟩ := pushAt_like h ha hpush
      rw [hpush']
      exact ⟨_, rfl, rfl, hm⟩
  · cases hrun

end Ladder

namespace Book

/-- The same levels with orders that are alike. -/
structure Like (L : Likeness) (b b' : Book) : Prop where
  symbol_eq : b'.symbol = b.symbol
  side_eq : ∀ side, (b'.ladder side).side = (b.ladder side).side
  levels : ∀ side, List.Forall₂ (Level.Like L) (b.ladder side).levels (b'.ladder side).levels

variable {b b' b₁ : Book}

theorem Like.refl (L : Likeness) (b : Book) : b.Like L b where
  symbol_eq := rfl
  side_eq _ := rfl
  levels _ := List.forall₂_same.mpr fun l _ => Level.Like.refl L l

/-- Where `insert` can put one of two orders that are alike in, it can the other, and the books come
out alike. If the orders have one number, so do their places. -/
theorem insert_like (h : L.Alike o o') (ha : o.Abreast o' (b.ladder o.side).orders) {u : Unit}
    (hrun : insert o b = .ok u b₁) :
    ∃ b₂, insert o' b = .ok u b₂ ∧ b₁.Like L b₂ ∧
      (o'.sequence = o.sequence → b₂.index = b₁.index) := by
  have hkin := L.kin h
  rw [insert_run] at hrun ⊢
  rw [hkin.id_eq, hkin.orderType_eq, hkin.price_eq, hkin.side_eq]
  split at hrun
  · cases hrun
  · next hfree =>
      rw [if_neg hfree]
      split at hrun
      · next htype hprice =>
          split at hrun
          · next l₁ hpush =>
              cases hrun
              obtain ⟨l₂, hpush', hside, hlevels⟩ := Ladder.push_like h ha hpush
              rw [hpush']
              refine ⟨_, rfl, ⟨?_, fun side => ?_, fun side => ?_⟩, fun hseq => ?_⟩
              · cases o.side <;> rfl
              · rw [ladder_index, ladder_index]
                cases o.side <;> cases side <;> first | exact hside | rfl
              · have hsame (ls : List Level) : List.Forall₂ (Level.Like L) ls ls :=
                  List.forall₂_same.mpr fun l _ => Level.Like.refl L l
                rw [ladder_index, ladder_index]
                cases o.side <;> cases side <;> first | exact hlevels | exact hsame _
              · dsimp only
                rw [hseq]
          · cases hrun
      · cases hrun

theorem Like.bestPrice?_eq (h : b.Like L b') (side : Side) :
    (b'.ladder side).bestPrice? = (b.ladder side).bestPrice? := by
  have hlevels := h.levels side
  unfold Ladder.bestPrice? Ladder.best?
  generalize (b.ladder side).levels = ls, (b'.ladder side).levels = ls' at hlevels ⊢
  cases hlevels with
  | nil => rfl
  | cons hlevel _ => exact congrArg some hlevel.price_eq

theorem Like.isCrossed_eq (h : b.Like L b') : b'.isCrossed = b.isCrossed := by
  have hbid : b'.bestBid? = b.bestBid? := h.bestPrice?_eq .buy
  have hask : b'.bestAsk? = b.bestAsk? := h.bestPrice?_eq .sell
  unfold isCrossed
  rw [hbid, hask]

/-- The orders of a side of two books that are `Like`, in the order in which they are to trade, are
alike. -/
theorem Like.orders (h : b.Like L b') (side : Side) :
    List.Forall₂ L.Alike (b.ladder side).orders (b'.ladder side).orders := by
  have hlevels := h.levels side
  unfold Ladder.orders
  generalize (b.ladder side).levels = ls, (b'.ladder side).levels = ls' at hlevels ⊢
  induction hlevels with
  | nil => exact .nil
  | cons hlevel _ ih =>
      rw [List.flatMap_cons, List.flatMap_cons]
      exact List.rel_append hlevel.orders ih

theorem Like.ids_eq (h : b.Like L b') (side : Side) :
    (b'.ladder side).orders.map Order.id = (b.ladder side).orders.map Order.id := by
  have horders := h.orders side
  generalize (b.ladder side).orders = os, (b'.ladder side).orders = os' at horders ⊢
  induction horders with
  | nil => rfl
  | cons ho _ ih => rw [List.map_cons, List.map_cons, (L.kin ho).id_eq, ih]

theorem Sound.has_iff_mem (hs : b.Sound) {x : OrderId} :
    b.Has x ↔ ∃ side, x ∈ (b.ladder side).orders.map Order.id := by
  constructor
  · rintro ⟨o, ho, rfl⟩
    exact ⟨o.side, List.mem_map_of_mem ho⟩
  · rintro ⟨side, hx⟩
    obtain ⟨o, ho, rfl⟩ := List.mem_map.mp hx
    exact ⟨o, hs.holds_of_mem ho, rfl⟩

/-- Books that are `Like` hold orders of the same identities. -/
theorem Like.has_iff (h : b.Like L b') (hs : b.Sound) (hs' : b'.Sound) (x : OrderId) :
    b'.Has x ↔ b.Has x := by
  rw [hs.has_iff_mem, hs'.has_iff_mem]
  exact exists_congr fun side => by rw [h.ids_eq]

end Book

end Bourse
