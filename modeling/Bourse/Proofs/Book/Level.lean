import Bourse.Book.Level
import Bourse.Proofs.Order

/-!
# Levels in order

A level is `Sound` when its orders stand by their sequence numbers and all belong where
they are. Each operation on a level changes its orders at one place, and that is how it is
described here: the orders before the place and those behind it stay, an order is put in,
taken out or rewritten between them. A fault comes after the orders have been changed or
before, but never leaves them half changed, so a sound level stays sound through it.

The sum that a level keeps in `total` is not looked at here; equations such as `push_run`
say which arithmetic makes it.
-/

namespace Bourse

/-- The order is a limit order of this side at this price. -/
structure Order.StandsAt (side : Side) (price : Price) (o : Order) : Prop where
  side_eq : o.side = side
  orderType_eq : o.orderType = .limit
  price_eq : ∃ p, o.price = some p ∧ p.SameValue price

theorem Order.StandsAt.of_same {side : Side} {price : Price} {o o' : Order}
    (h : o.StandsAt side price) (hs : o.Same o') : o'.StandsAt side price where
  side_eq := hs.side_eq.trans h.side_eq
  orderType_eq := hs.orderType_eq.trans h.orderType_eq
  price_eq := by
    rw [hs.price_eq]
    exact h.price_eq

namespace Level

/-- The orders stand by their sequence numbers. -/
def InLine (orders : List Order) : Prop := orders.Pairwise fun a b => a.sequence < b.sequence

/-- Orders `InLine`, each where it belongs. -/
structure Sound (side : Side) (l : Level) : Prop where
  inLine : InLine l.orders
  placed : ∀ o ∈ l.orders, o.StandsAt side l.price

theorem sound_empty (side : Side) (price : Price) : (Level.empty price).Sound side :=
  ⟨List.Pairwise.nil, fun _ h => by cases h⟩

/-! ## A place in line -/

section Place

variable {o o' : Order} {xs ys : List Order}

theorem InLine.around (h : InLine (xs ++ o :: ys)) :
    (∀ x ∈ xs, x.sequence < o.sequence) ∧ ∀ y ∈ ys, o.sequence < y.sequence := by
  obtain ⟨-, hmid, hcross⟩ := List.pairwise_append.mp h
  exact ⟨fun x hx => hcross x hx o List.mem_cons_self, (List.pairwise_cons.mp hmid).1⟩

theorem InLine.without (h : InLine (xs ++ o :: ys)) : InLine (xs ++ ys) :=
  h.sublist (List.Sublist.append_left (List.sublist_cons_self o ys) xs)

theorem InLine.rewrite (h : InLine (xs ++ o :: ys)) (hs : o'.sequence = o.sequence) :
    InLine (xs ++ o' :: ys) := by
  obtain ⟨hxs, hys⟩ := h.around
  obtain ⟨hl, hmid, hcross⟩ := List.pairwise_append.mp h
  refine List.pairwise_append.mpr ⟨hl, List.pairwise_cons.mpr ⟨?_, hmid.tail⟩, ?_⟩
  · intro y hy
    rw [hs]
    exact hys y hy
  · intro x hx y hy
    rcases List.mem_cons.mp hy with rfl | hy
    · rw [hs]
      exact hxs x hx
    · exact hcross x hx y (List.mem_cons_of_mem _ hy)

theorem InLine.find?_eq (h : InLine (xs ++ o :: ys)) :
    (xs ++ o :: ys).find? (fun x => x.sequence = o.sequence) = some o := by
  have hlt := h.around.1
  rw [List.find?_append, List.find?_eq_none.mpr, Option.none_or, List.find?_cons_of_pos]
  · exact decide_eq_true rfl
  · intro x hx
    have := hlt x hx
    simp only [decide_eq_true_eq]
    omega

theorem InLine.filter_eq (h : InLine (xs ++ o :: ys)) :
    (xs ++ o :: ys).filter (fun x => x.sequence ≠ o.sequence) = xs ++ ys := by
  obtain ⟨hxs, hys⟩ := h.around
  rw [List.filter_append, List.filter_cons_of_neg (by simp),
    List.filter_eq_self.mpr, List.filter_eq_self.mpr]
  · intro y hy
    have := hys y hy
    simp only [decide_eq_true_eq]
    omega
  · intro x hx
    have := hxs x hx
    simp only [decide_eq_true_eq]
    omega

theorem InLine.replace_eq (h : InLine (xs ++ o :: ys)) (hs : o'.sequence = o.sequence) :
    replace o' (xs ++ o :: ys) = xs ++ o' :: ys := by
  obtain ⟨hxs, hys⟩ := h.around
  have keep (l : List Order) (hl : ∀ x ∈ l, x.sequence ≠ o'.sequence) :
      l.map (fun x => if x.sequence = o'.sequence then o' else x) = l :=
    (List.map_congr_left fun x hx => if_neg (hl x hx)).trans (List.map_id l)
  unfold replace
  rw [List.map_append, List.map_cons, if_pos hs.symm, keep xs, keep ys]
  · intro y hy
    have := hys y hy
    omega
  · intro x hx
    have := hxs x hx
    omega

/-- `enqueue` finds the place of a sequence number of its own. -/
theorem InLine.enqueue {orders : List Order} (h : InLine orders)
    (hnew : ∀ x ∈ orders, x.sequence ≠ o.sequence) :
    ∃ xs ys, orders = xs ++ ys ∧ Level.enqueue o orders = xs ++ o :: ys ∧
      InLine (xs ++ o :: ys) := by
  induction orders with
  | nil => exact ⟨[], [], rfl, rfl, List.pairwise_singleton _ _⟩
  | cons x rest ih =>
      obtain ⟨hx, hrest⟩ := List.pairwise_cons.mp h
      by_cases hlt : o.sequence < x.sequence
      · refine ⟨[], x :: rest, rfl, if_pos hlt, List.pairwise_cons.mpr ⟨?_, h⟩⟩
        intro y hy
        rcases List.mem_cons.mp hy with rfl | hy
        · exact hlt
        · have := hx y hy
          omega
      · obtain ⟨xs, ys, hsplit, henq, hline⟩ :=
          ih hrest fun y hy => hnew y (List.mem_cons_of_mem _ hy)
        refine ⟨x :: xs, ys, by rw [hsplit, List.cons_append], ?_, ?_⟩
        · rw [Level.enqueue, if_neg hlt, henq, List.cons_append]
        · refine List.pairwise_cons.mpr ⟨?_, hline⟩
          have hne := hnew x List.mem_cons_self
          intro y hy
          rcases List.mem_append.mp hy with hy | hy
          · exact hx y (by rw [hsplit]; exact List.mem_append_left _ hy)
          · rcases List.mem_cons.mp hy with rfl | hy
            · omega
            · exact hx y (by rw [hsplit]; exact List.mem_append_right _ hy)

end Place

section Sound

variable {side : Side} {l : Level} {o o' : Order} {xs ys : List Order}

theorem Sound.at (h : l.Sound side) (hx : l.orders = xs ++ o :: ys) : o.StandsAt side l.price :=
  h.placed o (by rw [hx]; exact List.mem_append_right _ List.mem_cons_self)

theorem Sound.sameValue (h : l.Sound side) (hx : l.orders = xs ++ o :: ys) {price : Price}
    (hp : o.price = some price) : l.price.SameValue price := by
  obtain ⟨q, hq, hqv⟩ := (h.at hx).price_eq
  rw [hp] at hq
  cases hq
  exact hqv.symm

theorem Sound.without (h : l.Sound side) (hx : l.orders = xs ++ o :: ys) (total : Quantity) :
    (⟨l.price, xs ++ ys, total⟩ : Level).Sound side where
  inLine := InLine.without (hx ▸ h.inLine)
  placed x hm := h.placed x (by
    rw [hx]
    rcases List.mem_append.mp hm with hm | hm
    · exact List.mem_append_left _ hm
    · exact List.mem_append_right _ (List.mem_cons_of_mem _ hm))

theorem Sound.rewrite (h : l.Sound side) (hx : l.orders = xs ++ o :: ys) (hs : o.Same o')
    (total : Quantity) : (⟨l.price, xs ++ o' :: ys, total⟩ : Level).Sound side where
  inLine := InLine.rewrite (hx ▸ h.inLine) hs.sequence_eq
  placed x hm := by
    rcases List.mem_append.mp hm with hm | hm
    · exact (h.without hx total).placed x (List.mem_append_left _ hm)
    · rcases List.mem_cons.mp hm with rfl | hm
      · exact (h.at hx).of_same hs
      · exact (h.without hx total).placed x (List.mem_append_right _ hm)

theorem Sound.enqueue (h : l.Sound side) (hp : o.StandsAt side l.price)
    (hx : l.orders = xs ++ ys) (hline : InLine (xs ++ o :: ys)) (total : Quantity) :
    (⟨l.price, xs ++ o :: ys, total⟩ : Level).Sound side where
  inLine := hline
  placed x hm := by
    rcases List.mem_append.mp hm with hm | hm
    · exact h.placed x (by rw [hx]; exact List.mem_append_left _ hm)
    · rcases List.mem_cons.mp hm with rfl | hm
      · exact hp
      · exact h.placed x (by rw [hx]; exact List.mem_append_right _ hm)

end Sound

/-! ## The operations -/

theorem push_run (o : Order) (l : Level) :
    Level.push o l =
      if o.remaining ≤ 0 then .error (.violation (.notRestable o.id)) l
      else if (l.find? o.sequence).isSome then .error (.violation (.duplicateOrderId o.id)) l
      else
        match l.total.add? o.remaining with
        | none => .error (.violation (.quantityOverflow l.price)) l
        | some total => .ok ⟨⟩ { l with orders := enqueue o l.orders, total } := by
  unfold Level.push
  rw [Attempt.run_bind, Attempt.run_get]
  dsimp only
  split
  · rfl
  · split
    · rfl
    · cases l.total.add? o.remaining <;> rfl

theorem remove_run (sequence : Nat) (l : Level) :
    Level.remove sequence l =
      match l.find? sequence with
      | none => .ok none l
      | some o =>
        match orFault (l.total.sub o.remaining) with
        | .error f => .error f { l with
            orders := l.orders.filter fun x => x.sequence ≠ sequence }
        | .ok total => .ok (some o) { l with
            orders := l.orders.filter fun x => x.sequence ≠ sequence, total } := by
  unfold Level.remove
  rw [Attempt.run_bind, Attempt.run_get]
  dsimp only
  cases l.find? sequence with
  | none => rfl
  | some o =>
      simp only [Attempt.run_bind, Attempt.run_modify]
      cases orFault (l.total.sub o.remaining) <;> rfl

theorem fillFront_run (q : Quantity) (l : Level) :
    Level.fillFront q l =
      match l.orders with
      | [] => .error (.violation (.emptyLevel l.price)) l
      | o :: rest =>
        match o.fill q with
        | .error f => .error f l
        | .ok o' =>
          match orFault (l.total.sub q) with
          | .error f => .error f { l with orders := o' :: rest }
          | .ok total => .ok o' { l with orders := o' :: rest, total } := by
  unfold Level.fillFront
  rw [Attempt.run_bind, Attempt.run_get]
  dsimp only
  cases l.orders with
  | nil => rfl
  | cons o rest =>
      simp only [Attempt.run_bind]
      cases o.fill q with
      | error f => rfl
      | ok o' =>
          simp only [Attempt.run_lift_ok, Attempt.run_modify]
          cases orFault (l.total.sub q) <;> rfl

theorem reduce_run (sequence : Nat) (q : Quantity) (l : Level) :
    Level.reduce sequence q l =
      match l.find? sequence with
      | none => .ok none l
      | some o =>
        match Order.setRemaining q o with
        | .error f o' => .error f { l with orders := replace o' l.orders }
        | .ok _ o' =>
          match orFault (l.total.sub o.remaining) with
          | .error f => .error f { l with orders := replace o' l.orders }
          | .ok without =>
            match orFault (without.add q) with
            | .error f => .error f { l with orders := replace o' l.orders }
            | .ok total =>
              .ok (({ l with orders := replace o' l.orders, total } : Level).find? sequence)
                { l with orders := replace o' l.orders, total } := by
  unfold Level.reduce
  rw [Attempt.run_bind, Attempt.run_get]
  dsimp only
  cases l.find? sequence with
  | none => rfl
  | some o =>
      simp only [Attempt.run_bind, Attempt.run_focus]
      cases Order.setRemaining q o with
      | error f o' => rfl
      | ok _ o' =>
          dsimp only
          cases orFault (l.total.sub o.remaining) with
          | error f => rfl
          | ok without =>
              simp only [Attempt.run_lift_ok]
              cases orFault (without.add q) <;> rfl

section Place

variable {side : Side} {l : Level} {o : Order} {xs ys : List Order}

theorem Sound.find? (h : l.Sound side) (hx : l.orders = xs ++ o :: ys) :
    l.find? o.sequence = some o := by
  unfold Level.find?
  rw [hx]
  exact InLine.find?_eq (hx ▸ h.inLine)

theorem mem_of_find? {n : Nat} (h : l.find? n = some o) : o ∈ l.orders ∧ o.sequence = n := by
  refine ⟨List.mem_of_find?_eq_some h, ?_⟩
  simpa using List.find?_some h

/-- `push` finds the place of an order with something left and a number of its own, if the sum fits.
-/
theorem Sound.push_run (h : l.Sound side) (hp : o.StandsAt side l.price)
    (hpos : 0 < o.remaining) (hnew : ∀ x ∈ l.orders, x.sequence ≠ o.sequence) :
    ∃ xs ys, l.orders = xs ++ ys ∧
      (∀ total, (⟨l.price, xs ++ o :: ys, total⟩ : Level).Sound side) ∧
      Level.push o l =
        match l.total.add? o.remaining with
        | none => .error (.violation (.quantityOverflow l.price)) l
        | some total => .ok ⟨⟩ ⟨l.price, xs ++ o :: ys, total⟩ := by
  obtain ⟨xs, ys, hsplit, henq, hline⟩ := h.inLine.enqueue hnew
  refine ⟨xs, ys, hsplit, h.enqueue hp hsplit hline, ?_⟩
  have hfree : (l.find? o.sequence).isSome = false := by
    rw [Option.isSome_eq_false_iff, Option.isNone_iff_eq_none]
    exact List.find?_eq_none.mpr fun x hx => by simpa using hnew x hx
  have hsome : ¬ o.remaining ≤ 0 := Int.not_le.mpr hpos
  rw [Level.push_run, if_neg hsome, hfree, if_neg Bool.false_ne_true, henq]

theorem Sound.remove_run (h : l.Sound side) (hx : l.orders = xs ++ o :: ys) :
    Level.remove o.sequence l =
      match orFault (l.total.sub o.remaining) with
      | .error f => .error f ⟨l.price, xs ++ ys, l.total⟩
      | .ok total => .ok (some o) ⟨l.price, xs ++ ys, total⟩ := by
  have hrest := InLine.filter_eq (hx ▸ h.inLine)
  rw [← hx] at hrest
  rw [Level.remove_run, h.find? hx, hrest]

theorem Sound.reduce_run (h : l.Sound side) (hx : l.orders = xs ++ o :: ys) (q : Quantity) :
    Level.reduce o.sequence q l =
      match Order.setRemaining q o with
      | .error f o' => .error f ⟨l.price, xs ++ o' :: ys, l.total⟩
      | .ok _ o' =>
        match orFault (l.total.sub o.remaining) with
        | .error f => .error f ⟨l.price, xs ++ o' :: ys, l.total⟩
        | .ok without =>
          match orFault (without.add q) with
          | .error f => .error f ⟨l.price, xs ++ o' :: ys, l.total⟩
          | .ok total => .ok (some o') ⟨l.price, xs ++ o' :: ys, total⟩ := by
  have hsame := Order.setRemaining_same q o
  rw [Level.reduce_run, h.find? hx]
  dsimp only
  cases hr : Order.setRemaining q o with
  | error f o' =>
      rw [Attempt.outcome_error hr] at hsame
      dsimp only at hsame ⊢
      rw [hx, InLine.replace_eq (hx ▸ h.inLine) hsame.sequence_eq]
  | ok _ o' =>
      rw [Attempt.outcome_ok hr] at hsame
      dsimp only at hsame ⊢
      have hput := InLine.replace_eq (hx ▸ h.inLine) hsame.sequence_eq
      rw [← hx] at hput
      rw [hput]
      cases orFault (l.total.sub o.remaining) with
      | error f => rfl
      | ok without =>
          dsimp only
          cases orFault (without.add q) with
          | error f => rfl
          | ok total =>
              dsimp only
              rw [← hsame.sequence_eq, (h.rewrite hx hsame total).find? rfl]

end Place

/-! ## Levels without orders -/

/-- What a ladder keeps of a level that has lost an order: the level, unless that was its last. -/
def kept (l : Level) : List Level := if l.orders.isEmpty then [] else [l]

theorem kept_orders (l : Level) : l.kept.flatMap Level.orders = l.orders := by
  unfold kept
  split
  · next h => rw [List.isEmpty_iff.mp h]; rfl
  · exact List.flatMap_singleton ..

theorem mem_kept {l x : Level} : x ∈ l.kept ↔ x = l ∧ l.orders ≠ [] := by
  unfold kept
  split
  · next h => simp [List.isEmpty_iff.mp h]
  · next h => simp [mt List.isEmpty_iff.mpr h]

theorem kept_ne_nil {l x : Level} (h : x ∈ l.kept) : x.orders ≠ [] := by
  obtain ⟨rfl, hne⟩ := mem_kept.mp h
  exact hne

end Level

end Bourse
