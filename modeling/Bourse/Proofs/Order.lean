import Bourse.Order.Basic
import Bourse.Proofs.Attempt
import Bourse.Proofs.Decimal.Sums

/-!
# What fills do to an order

`Order.fill` changes two fields of an order, its status and what is left of it, and it is
always possible where it is allowed (`fill_isOk`). What is left never grows and never
turns negative: a part that is less than all leaves something, however the difference is
rounded, and all of it leaves nothing. So the status and what is left tell the same story
(`fill_filled_iff`).

`Filled` is any number of fills one after another. `setRemaining` gives an order another
quantity to be left; on a `Sized` order it succeeds wherever the new quantity can be told.
-/

namespace Bourse

open Decimal (halfUnit greatestAtoms)

/-- The first moment of the year 2000. -/
def Timestamp.millennium : Timestamp := ⟨2000, 1, 1, 0, 0, 0, 0, by decide, by decide⟩

/-- Where a transition leads. -/
def OrderTransition.target : OrderTransition → OrderStatus
  | .reject => .rejected
  | .partialFill => .partiallyFilled
  | .fill => .filled
  | .cancel => .cancelled

/-- All transitions but `reject` are open to live orders and to no others. -/
theorem OrderStatus.advance_eq (s : OrderStatus) {t : OrderTransition} (h : t ≠ .reject) :
    s.advance t =
      if s.isLive then .ok t.target else .error (.illegalTransition s t) := by
  cases t <;> first | exact absurd rfl h | (cases s <;> rfl)

namespace Order

variable {o o' : Order} {q : Quantity}

theorem cancel_eq (o : Order) :
    o.cancel =
      if o.status.isLive then .ok { o with status := .cancelled }
      else .error (.illegalTransition o.status .cancel) := by
  unfold cancel advance
  rw [OrderStatus.advance_eq _ (by decide)]
  split <;> rfl

/-- The same order at another time: only `quantity`, `remaining` and `status` may have changed. -/
structure Same (o o' : Order) : Prop where
  id_eq : o'.id = o.id
  symbol_eq : o'.symbol = o.symbol
  side_eq : o'.side = o.side
  orderType_eq : o'.orderType = o.orderType
  timeInForce_eq : o'.timeInForce = o.timeInForce
  price_eq : o'.price = o.price
  timestamp_eq : o'.timestamp = o.timestamp
  sequence_eq : o'.sequence = o.sequence

theorem Same.refl (o : Order) : Same o o := ⟨rfl, rfl, rfl, rfl, rfl, rfl, rfl, rfl⟩

theorem Same.trans {o₁ o₂ o₃ : Order} (h : Same o₁ o₂) (k : Same o₂ o₃) : Same o₁ o₃ where
  id_eq := k.id_eq.trans h.id_eq
  symbol_eq := k.symbol_eq.trans h.symbol_eq
  side_eq := k.side_eq.trans h.side_eq
  orderType_eq := k.orderType_eq.trans h.orderType_eq
  timeInForce_eq := k.timeInForce_eq.trans h.timeInForce_eq
  price_eq := k.price_eq.trans h.price_eq
  timestamp_eq := k.timestamp_eq.trans h.timestamp_eq
  sequence_eq := k.sequence_eq.trans h.sequence_eq

/-- The status that `fill` gives to an order. -/
def statusAfter (o : Order) (q : Quantity) : OrderStatus :=
  if q.SameValue o.remaining then .filled else .partiallyFilled

theorem fill_eq (q : Quantity) (o : Order) :
    o.fill q =
      if q ≤ 0 ∨ o.remaining < q then .error (.violation (.overfill o.id o.remaining q))
      else if o.status.isLive then
        (orFault (o.remaining.sub q)).map fun r =>
          { o with remaining := r, status := o.statusAfter q }
      else .error (.violation (.illegalTransition o.status
        (if q.SameValue o.remaining then .fill else .partialFill))) := by
  unfold fill advance statusAfter
  split
  · rfl
  · rw [OrderStatus.advance_eq _ (by split <;> decide)]
    cases hs : o.status.isLive
    · rfl
    · by_cases hv : q.SameValue o.remaining
      · simp only [if_pos hv]
        rfl
      · simp only [if_neg hv]
        rfl

theorem fill_eq_ok (h : o.fill q = .ok o') :
    0 < q ∧ q ≤ o.remaining ∧ o.status.isLive = true ∧ ∃ r, o.remaining.sub q = .ok r ∧
      o' = { o with remaining := r, status := o.statusAfter q } := by
  rw [fill_eq] at h
  split at h
  · cases h
  · next hq =>
      split at h
      · next hs =>
          have hpos : 0 < q := Int.not_le.mp fun hle => hq (Or.inl hle)
          have hle : q ≤ o.remaining := Int.not_lt.mp fun hlt => hq (Or.inr hlt)
          obtain ⟨r, hr, rfl⟩ := map_eq_ok.mp h
          exact ⟨hpos, hle, hs, r, orFault_eq_ok.mp hr, rfl⟩
      · cases h

theorem fill_same (h : o.fill q = .ok o') : Same o o' := by
  obtain ⟨-, -, -, r, -, rfl⟩ := fill_eq_ok h
  exact ⟨rfl, rfl, rfl, rfl, rfl, rfl, rfl, rfl⟩

theorem fill_quantity (h : o.fill q = .ok o') : o'.quantity = o.quantity := by
  obtain ⟨-, -, -, r, -, rfl⟩ := fill_eq_ok h
  rfl

/-- A fill of a part of what is left of a live order comes to its end. -/
theorem fill_isOk (hpos : 0 < q) (hle : q ≤ o.remaining) (hs : o.status.isLive = true) :
    ∃ o', o.fill q = .ok o' := by
  have hq : ¬ (q ≤ 0 ∨ o.remaining < q) := by
    rintro (h | h)
    · exact Int.not_lt.mpr h hpos
    · exact Int.not_lt.mpr hle h
  obtain ⟨r, hr⟩ := Decimal.sub_isOk (Int.le_of_lt hpos) hle
  refine ⟨{ o with remaining := r, status := o.statusAfter q }, ?_⟩
  rw [fill_eq, if_neg hq, if_pos hs, hr]
  rfl

/-- Only a broken rule can object to a fill: the difference in `fill` is in range. -/
theorem fill_error {f : Fault} (h : o.fill q = .error f) : ∃ v, f = .violation v := by
  rw [fill_eq] at h
  split at h
  · cases h
    exact ⟨_, rfl⟩
  · next hq =>
      split at h
      · have hpos : 0 < q := Int.not_le.mp fun hle => hq (Or.inl hle)
        have hle : q ≤ o.remaining := Int.not_lt.mp fun hlt => hq (Or.inr hlt)
        obtain ⟨r, hr⟩ := Decimal.sub_isOk (Int.le_of_lt hpos) hle
        rw [hr] at h
        cases h
      · cases h
        exact ⟨_, rfl⟩

theorem fill_remaining_le (h : o.fill q = .ok o') : o'.remaining ≤ o.remaining := by
  obtain ⟨hpos, -, -, r, hr, rfl⟩ := fill_eq_ok h
  exact Decimal.sub_le hr (Int.le_of_lt hpos)

/-- A fill uses an order up just if it takes all that is left. -/
theorem fill_used_up_iff (h : o.fill q = .ok o') :
    o'.remaining.SameValue 0 ↔ q.SameValue o.remaining := by
  obtain ⟨-, hle, -, r, hr, rfl⟩ := fill_eq_ok h
  have hqr : q.atoms ≤ o.remaining.atoms := hle
  constructor
  · intro hz
    by_cases hlt : q.atoms < o.remaining.atoms
    · have hpos := Decimal.sub_pos hr hlt
      have hzero : r.atoms = 0 := hz
      omega
    · exact Int.le_antisymm hqr (Int.not_lt.mp hlt)
  · intro hv
    exact Decimal.sub_self hr hv

theorem fill_remaining_nonneg (h : o.fill q = .ok o') : 0 ≤ o'.remaining := by
  obtain ⟨-, hle, -, r, hr, rfl⟩ := fill_eq_ok h
  exact Decimal.sub_nonneg hr hle

theorem fill_status (h : o.fill q = .ok o') :
    o'.status = if o'.remaining.SameValue 0 then .filled else .partiallyFilled := by
  have hiff := fill_used_up_iff h
  obtain ⟨-, -, -, r, -, rfl⟩ := fill_eq_ok h
  change statusAfter o q = _
  unfold statusAfter
  by_cases hv : q.SameValue o.remaining
  · rw [if_pos hv, if_pos (hiff.mpr hv)]
  · rw [if_neg hv, if_neg fun hz => hv (hiff.mp hz)]

theorem fill_filled_iff (h : o.fill q = .ok o') :
    o'.status = .filled ↔ o'.remaining.SameValue 0 := by
  rw [fill_status h]
  split
  · next hz => exact iff_of_true rfl hz
  · next hz => exact iff_of_false (by decide) hz

/-- The order after any number of calls of `fill`. -/
inductive Filled (o : Order) : Order → Prop
  | none : Filled o o
  | fill {o₁ o₂ : Order} {q : Quantity} : Filled o o₁ → o₁.fill q = .ok o₂ → Filled o o₂

namespace Filled

theorem trans {o₁ o₂ o₃ : Order} (h : Filled o₁ o₂) (k : Filled o₂ o₃) : Filled o₁ o₃ := by
  induction k with
  | none => exact h
  | fill _ hf ih => exact ih.fill hf

theorem same (h : Filled o o') : Same o o' := by
  induction h with
  | none => exact Same.refl o
  | fill _ hf ih => exact ih.trans (fill_same hf)

theorem quantity_eq (h : Filled o o') : o'.quantity = o.quantity := by
  induction h with
  | none => rfl
  | fill _ hf ih => exact (fill_quantity hf).trans ih

theorem remaining_le (h : Filled o o') : o'.remaining ≤ o.remaining := by
  induction h with
  | none => exact Int.le_refl _
  | fill _ hf ih => exact Int.le_trans (fill_remaining_le hf) ih

/-- A `Filled` order with something left of it is as live as it was. -/
theorem isLive (h : Filled o o') (hs : o.status.isLive = true) (hpos : 0 < o'.remaining) :
    o'.status.isLive = true := by
  cases h with
  | none => exact hs
  | fill _ hf =>
      have hne : ¬ o'.remaining.SameValue 0 := fun hz => Int.ne_of_gt hpos hz
      rw [fill_status hf, if_neg hne]
      rfl

theorem remaining_nonneg (h : Filled o o') (ho : 0 ≤ o.remaining) : 0 ≤ o'.remaining := by
  cases h with
  | none => exact ho
  | fill _ hf => exact fill_remaining_nonneg hf

end Filled

theorem setRemaining_run (q : Quantity) (o : Order) :
    Order.setRemaining q o =
      match o.filled with
      | .error f => .error f o
      | .ok filled =>
        match orFault (filled.add q) with
        | .error f => .error f { o with remaining := q }
        | .ok quantity => .ok ⟨⟩ { o with remaining := q, quantity } := by
  unfold Order.setRemaining
  simp only [Attempt.run_bind, Attempt.run_get]
  cases o.filled with
  | error f => rfl
  | ok filled =>
      simp only [Attempt.run_lift_ok, Attempt.run_modify]
      cases orFault (filled.add q) <;> rfl

theorem setRemaining_same (q : Quantity) (o : Order) :
    Same o (Attempt.outcome (Order.setRemaining q) o).2 := by
  unfold Attempt.outcome
  rw [setRemaining_run]
  cases o.filled with
  | error f => exact Same.refl o
  | ok filled =>
      dsimp only
      cases orFault (filled.add q) <;> exact ⟨rfl, rfl, rfl, rfl, rfl, rfl, rfl, rfl⟩

/-- Whatever comes of `setRemaining`, the order stays as live as it was, and what is left of it is
what was left or what was asked for. -/
theorem setRemaining_outcome (q : Quantity) (o : Order) :
    (Attempt.outcome (Order.setRemaining q) o).2.status = o.status ∧
      ((Attempt.outcome (Order.setRemaining q) o).2.remaining = o.remaining ∨
        (Attempt.outcome (Order.setRemaining q) o).2.remaining = q) := by
  unfold Attempt.outcome
  rw [setRemaining_run]
  cases o.filled with
  | error f => exact ⟨rfl, Or.inl rfl⟩
  | ok filled =>
      dsimp only
      cases orFault (filled.add q) with
      | error f => exact ⟨rfl, Or.inr rfl⟩
      | ok quantity => exact ⟨rfl, Or.inr rfl⟩

theorem filled_eq_ok {f : Quantity} : o.filled = .ok f ↔ o.quantity.sub o.remaining = .ok f :=
  orFault_eq_ok

theorem setRemaining_eq_ok {u : Unit} (h : Order.setRemaining q o = .ok u o') :
    ∃ f quantity, o.filled = .ok f ∧ f.add q = .ok quantity ∧
      o' = { o with remaining := q, quantity } := by
  rw [setRemaining_run] at h
  split at h
  · cases h
  · next f hf =>
      split at h
      · cases h
      · next quantity hq =>
          cases h
          exact ⟨f, quantity, hf, orFault_eq_ok.mp hq, rfl⟩

/-- Only the arithmetic can object in `setRemaining`. -/
theorem setRemaining_error {f : Fault} (h : Order.setRemaining q o = .error f o') :
    ∃ err, f = .arithmetic err := by
  have hfault {r : Except ArithmeticError Quantity} (hr : orFault r = .error f) :
      ∃ err, f = .arithmetic err := by
    cases r with
    | error err =>
        cases hr
        exact ⟨err, rfl⟩
    | ok _ => cases hr
  rw [setRemaining_run] at h
  split at h
  · next f' hf =>
      cases h
      exact hfault hf
  · split at h
    · next f' hf =>
        cases h
        exact hfault hf
    · cases h

theorem same_of_setRemaining {u : Unit} (h : Order.setRemaining q o = .ok u o') : Same o o' := by
  obtain ⟨_, _, -, -, rfl⟩ := setRemaining_eq_ok h
  exact ⟨rfl, rfl, rfl, rfl, rfl, rfl, rfl, rfl⟩

/-- What is left of an order is a part of its `quantity`. -/
structure Sized (o : Order) : Prop where
  nonneg : 0 ≤ o.remaining
  le : o.remaining ≤ o.quantity

/-- What has been `filled` of a `Sized` order can always be told. -/
theorem Sized.filled_isOk (h : o.Sized) : ∃ q, o.filled = .ok q := by
  obtain ⟨r, hr⟩ := Decimal.sub_isOk h.nonneg h.le
  exact ⟨r, orFault_eq_ok.mpr hr⟩

theorem filled_isOk_of_untouched (h : o.remaining = o.quantity) : ∃ q, o.filled = .ok q := by
  have hzero : o.quantity.atoms + (-o.remaining).atoms = 0 := by
    rw [Decimal.atoms_neg, h]
    omega
  obtain ⟨r, hr⟩ := Decimal.add?_isSome (a := o.quantity) (b := -o.remaining) (by omega) (by omega)
  exact ⟨r, orFault_eq_ok.mpr (Decimal.sub_eq_ok.mpr hr)⟩

theorem Filled.sized (h : Filled o o') (hs : o.Sized) : o'.Sized where
  nonneg := h.remaining_nonneg hs.nonneg
  le := by
    rw [h.quantity_eq]
    exact Int.le_trans h.remaining_le hs.le

theorem filled_nonneg (hs : o.Sized) {f : Quantity} (hf : o.filled = .ok f) : 0 ≤ f :=
  Decimal.sub_nonneg (filled_eq_ok.mp hf) hs.le

/-- `setRemaining` keeps what has been filled, so what is left is again a part. -/
theorem setRemaining_sized {u : Unit} (h : Order.setRemaining q o = .ok u o') (hs : o.Sized)
    (hq : 0 ≤ q) : o'.Sized := by
  obtain ⟨f, quantity, hf, hsum, rfl⟩ := setRemaining_eq_ok h
  have hnonneg : (0 : Int) ≤ f.atoms := filled_nonneg hs hf
  exact ⟨hq, Decimal.le_add? (y := q) (Decimal.add_eq_ok.mp hsum) (by omega)⟩

/-- What is left of an order can be lessened if its quantity is within the range of decimals by more
than the rounding, which is `halfUnit` at most. -/
theorem setRemaining_isOk (hs : o.Sized) (hq : 0 ≤ q) (hle : q ≤ o.remaining)
    (hcap : o.quantity.atoms + halfUnit ≤ greatestAtoms) :
    ∃ o', Order.setRemaining q o = .ok ⟨⟩ o' ∧
      o'.quantity.atoms ≤ o.quantity.atoms + 2 * halfUnit := by
  have hq : (0 : Int) ≤ q.atoms := hq
  have hle : q.atoms ≤ o.remaining.atoms := hle
  obtain ⟨f, hf⟩ := hs.filled_isOk
  have hnonneg : (0 : Int) ≤ f.atoms := filled_nonneg hs hf
  have hoff := (Decimal.sub_off (filled_eq_ok.mp hf)).1
  obtain ⟨quantity, hsum⟩ := Decimal.add?_isSome (a := f) (b := q) (by omega) (by omega)
  have hoff' := (Decimal.add?_off hsum).1
  refine ⟨{ o with remaining := q, quantity }, ?_, ?_⟩
  · rw [setRemaining_run, hf]
    dsimp only
    rw [Decimal.add_eq_ok.mpr hsum]
    rfl
  · show quantity.atoms ≤ _
    omega

/-- An order that is lessened stays `Sized` even if the new quantity cannot be told. -/
theorem setRemaining_outcome_sized (hs : o.Sized) (hq : 0 ≤ q) (hle : q ≤ o.remaining) :
    (Attempt.outcome (Order.setRemaining q) o).2.Sized := by
  cases h : Order.setRemaining q o with
  | ok u o' =>
      rw [Attempt.outcome_ok h]
      exact setRemaining_sized h hs hq
  | error f o' =>
      rw [Attempt.outcome_error h]
      rw [setRemaining_run] at h
      split at h
      · cases h
        exact hs
      · split at h
        · cases h
          exact ⟨hq, Int.le_trans hle hs.le⟩
        · cases h

end Order

end Bourse
