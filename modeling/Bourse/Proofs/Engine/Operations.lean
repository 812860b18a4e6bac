import Bourse.Proofs.Engine.Desk

/-!
# Cancelling and modifying at a desk

A cancellation takes an order out. A modification leaves an order alone, lessens it in its
place (`lessen`), or takes it out and sends it in again (`reenter`); only the last changes
what number it has, and then the number is a new one. What either has come to is listed by
`Cancelled` and `Modified`. As with an order that comes in, what `Worked` tells here holds
of every outcome.
-/

namespace Bourse

/-- The update tells of a rejection. -/
structure OrderUpdate.IsRejection (u : OrderUpdate) : Prop where
  status_eq : u.status = .rejected
  reasoned : u.rejectReason.isSome = true

/-- The update tells that an order was rejected, and why. -/
structure OrderUpdate.Rejects (u : OrderUpdate) (id : OrderId) (reason : RejectReason) : Prop where
  id_eq : u.orderId = id
  status_eq : u.status = .rejected
  reason_eq : u.rejectReason = some reason

/-- The update `Rejects` an order as it came in: all of it is left and nothing of it has been
filled. -/
structure OrderUpdate.Declines (u : OrderUpdate) (o : Order) (reason : RejectReason)
    (sequence : Nat) : Prop extends u.Rejects o.id reason where
  symbol_eq : u.symbol = o.symbol
  remaining_eq : u.remaining = o.quantity
  filled_zero : u.filled.SameValue 0
  sequence_eq : u.sequence = sequence

theorem OrderUpdate.Rejects.isRejection {u : OrderUpdate} {id : OrderId} {reason : RejectReason}
    (h : u.Rejects id reason) : u.IsRejection :=
  ⟨h.status_eq, by rw [h.reason_eq]; rfl⟩

namespace Desk

theorem cancel_run (world : Surroundings) (id : OrderId) (d : Desk) :
    cancel world id d =
      match Book.cancel id d.book with
      | .error f b => .error f { d with book := b }
      | .ok none b => .ok .notFound { d with book := b }
      | .ok (some o) b =>
        match emitUpdate world o ({ d with book := b }.release id) with
        | .error f d' => .error f d'
        | .ok _ d' => .ok (.cancelled o) d' := by
  unfold cancel
  rw [Attempt.run_bind, onBook_run]
  cases Book.cancel id d.book with
  | error f b => rfl
  | ok r b =>
      cases r with
      | none => rfl
      | some o =>
          dsimp only
          rw [Attempt.run_bind, Attempt.run_modify]
          dsimp only
          rw [Attempt.run_bind]
          cases emitUpdate world o ({ d with book := b }.release id) <;> rfl

theorem lessen_run (world : Surroundings) (id : OrderId) (q : Quantity) (d : Desk) :
    lessen world id q d =
      match Book.reduce id q d.book with
      | .error f b => .error f { d with book := b }
      | .ok o b =>
        match emitUpdate world o { d with book := b } with
        | .error f d' => .error f d'
        | .ok _ d' => .ok ⟨o, []⟩ d' := by
  unfold lessen
  rw [Attempt.run_bind, onBook_run]
  cases Book.reduce id q d.book with
  | error f b => rfl
  | ok o b =>
      dsimp only
      rw [Attempt.run_bind]
      cases emitUpdate world o { d with book := b } <;> rfl

/-- The desk once an order has been taken out to be sent in again. -/
def rearrived (d : Desk) (b : Book) : Desk :=
  { d with book := b, counters := { d.counters with arrivals := d.counters.arrivals + 1 } }

theorem reenter_run (rule : MatchingRule) (world : Surroundings) (id : OrderId)
    (price : Option Price) (q : Quantity) (d : Desk) :
    reenter rule world id price q d =
      match Book.take id d.book with
      | .error f b => .error f { d with book := b }
      | .ok none b => .error (.violation (.unknownOrder id)) { d with book := b }
      | .ok (some o) b =>
        match Order.setRemaining q { o with price } with
        | .error f _ => .error f { d with book := b }
        | .ok _ o' =>
          execute rule world { o' with sequence := d.counters.arrivals + 1 } (d.rearrived b) := by
  unfold reenter
  rw [Attempt.run_bind, onBook_run]
  cases Book.take id d.book with
  | error f b => rfl
  | ok r b =>
      cases r with
      | none => rfl
      | some o =>
          dsimp only
          rw [Attempt.run_bind, Attempt.run_get]
          dsimp only
          rw [Attempt.run_bind, Attempt.run_focus, Attempt.run_bind]
          cases Order.setRemaining q { o with price } <;> rfl

theorem modifyOrder_run (rule : MatchingRule) (world : Surroundings) (id : OrderId)
    (request : ModifyRequest) (d : Desk) :
    modifyOrder rule world id request d =
      match d.book.get? id with
      | none => .ok .notFound d
      | some o =>
        if SamePrice (request.price.or o.price) o.price ∧
            request.quantity.SameValue o.remaining then
          .ok (.modified ⟨o, []⟩) d
        else if SamePrice (request.price.or o.price) o.price ∧ request.quantity < o.remaining then
          match lessen world id request.quantity d with
          | .error f d' => .error f d'
          | .ok r d' => .ok (.modified r) d'
        else
          match reenter rule world id (request.price.or o.price) request.quantity d with
          | .error f d' => .error f d'
          | .ok r d' => .ok (.modified r) d' := by
  unfold modifyOrder
  rw [Attempt.run_bind, Attempt.run_get]
  dsimp only
  cases d.book.get? id with
  | none => rfl
  | some o =>
      dsimp only
      split
      · rfl
      · split
        · rw [Attempt.run_bind]
          cases lessen world id request.quantity d <;> rfl
        · rw [Attempt.run_bind]
          cases reenter rule world id (request.price.or o.price) request.quantity d <;> rfl

/-- `modifyOrder` has come to its end when the work in it has. -/
theorem modified_eq_ok {run : EStateM.Result Fault Desk OrderResult} {r : ModifyResult} {d' : Desk}
    (h : (match run with
      | .error f d => .error f d
      | .ok r d => .ok (.modified r) d : EStateM.Result Fault Desk ModifyResult) = .ok r d') :
    ∃ result, run = .ok result d' ∧ r = .modified result := by
  cases run with
  | error f d => cases h
  | ok result d =>
      cases h
      exact ⟨result, rfl, rfl⟩

/-! ## Cancellations -/

/-- `cancel` that has come to its end. -/
inductive Cancelled (world : Surroundings) (id : OrderId) (d : Desk) :
    CancelResult → Desk → Prop
  | absent : ¬ d.book.Has id → Cancelled world id d .notFound d
  | dead {o : Order} {b : Book} : d.book.Holds o → o.id = id → o.status.isLive = false →
      Book.Departed o d.book b → Cancelled world id d .notFound { d with book := b }
  | found {o : Order} {u : OrderUpdate} {n : Nat} {d' : Desk} :
      d.book.Holds o → o.id = id → o.status.isLive = true → Book.Departed o d.book d'.book →
      OrderUpdate.ofOrder { o with status := .cancelled } world.now n = .ok u →
      d'.emitted = d.emitted ++ [.update u] → d'.routes = d.routes.erase id →
      Counted 0 d d' → Book.take id d.book = .ok (some o) d'.book →
      Cancelled world id d (.cancelled { o with status := .cancelled }) d'

section Cancel

variable {id : OrderId} {d : Desk}

theorem Worked.refl {New : Order → Prop} (hs : d.book.Sound) : Worked id New d d :=
  .of_worn (.refl hs) (Nat.le_refl _) fun _ _ => rfl

/-- What has `Departed` under an identity may take its route along. -/
theorem Worked.of_departed {New : Order → Prop} {o : Order} {d' : Desk} (hid : o.id = id)
    (h : Book.Departed o d.book d'.book) (ha : d.counters.arrivals ≤ d'.counters.arrivals)
    (hr : ∀ x, x ≠ id → d'.routes.get? x = d.routes.get? x) : Worked id New d d' := by
  refine .of_worn (.of_departed h) ha fun x hx => hr x ?_
  rcases hx with ⟨y, hy, rfl⟩ | hx
  · exact hid ▸ ((h.holds_iff y).mp hy).2
  · exact hx.1

/-- The order of an identity, or the assurance that there is none. -/
theorem index_cases (hs : d.book.Sound) (id : OrderId) :
    (∃ o, d.book.Holds o ∧ o.id = id) ∨ (¬ d.book.Has id ∧ d.book.index.get? id = none) := by
  by_cases hid : d.book.Has id
  · exact Or.inl hid
  · exact Or.inr ⟨hid, hs.index_none.mpr hid⟩

theorem cancel_absent (world : Surroundings) (h : d.book.index.get? id = none) :
    cancel world id d = .ok .notFound d := by
  rw [cancel_run, Book.cancel_run, Book.take_none h]

theorem cancel_worked (world : Surroundings) (id : OrderId) (hs : d.book.Sound)
    (hsized : ∀ o, d.book.Holds o → o.Sized) :
    match cancel world id d with
    | .error _ d' | .ok _ d' => Worked id (fun _ => False) d d' := by
  rcases index_cases hs id with ⟨o, ho, rfl⟩ | ⟨-, hnone⟩
  · have hout := Book.take_outcome hs ho
    rw [cancel_run, Book.cancel_run]
    cases ht : Book.take o.id d.book with
    | error f b' =>
        rw [ht] at hout
        exact .of_departed rfl hout (Nat.le_refl _) fun _ _ => rfl
    | ok r b' =>
        rw [ht] at hout
        obtain ⟨rfl, hdep⟩ := hout
        dsimp only
        rw [Order.cancel_eq]
        by_cases hlive : o.status.isLive = true
        · obtain ⟨u, -, hu⟩ := emitUpdate_isOk world (o := { o with status := .cancelled })
            ⟨(hsized o ho).nonneg, (hsized o ho).le⟩ ({ d with book := b' }.release o.id)
          rw [if_pos hlive]
          dsimp only [Except.toOption]
          rw [hu]
          refine Worked.told ?_ _
          exact .of_departed rfl hdep (Nat.le_refl _) fun x hx => Table.get?_erase_of_ne _ hx
        · rw [if_neg hlive]
          exact .of_departed rfl hdep (Nat.le_refl _) fun _ _ => rfl
  · rw [cancel_absent world hnone]
    exact .refl hs

theorem cancelled_of_ok {world : Surroundings} {r : CancelResult} {d' : Desk}
    (hs : d.book.Sound) (h : cancel world id d = .ok r d') : Cancelled world id d r d' := by
  rcases index_cases hs id with ⟨o, ho, rfl⟩ | ⟨hid, hnone⟩
  · have hout := Book.take_outcome hs ho
    rw [cancel_run, Book.cancel_run] at h
    cases ht : Book.take o.id d.book with
    | error f b' => rw [ht] at h; cases h
    | ok r b' =>
        rw [ht] at hout h
        obtain ⟨rfl, hdep⟩ := hout
        dsimp only at h
        rw [Order.cancel_eq] at h
        by_cases hlive : o.status.isLive = true
        · rw [if_pos hlive] at h
          dsimp only [Except.toOption] at h
          split at h
          · cases h
          · next hu =>
              cases h
              obtain ⟨u, n, hu, he, hb, hcounted, hr⟩ := ofOrder_of_emitUpdate hu
              have htaken : Counted 0 d { d with book := b', routes := d.routes.erase o.id } :=
                .of_eq rfl rfl
              exact .found ho rfl hlive (hb ▸ hdep) hu he hr (htaken.trans hcounted) (hb ▸ ht)
        · rw [if_neg hlive] at h
          cases h
          exact .dead ho rfl (Bool.eq_false_iff.mpr hlive) hdep
  · rw [cancel_absent world hnone] at h
    cases h
    exact .absent hid

end Cancel

/-! ## Modifications -/

/-- `modifyOrder` that has come to its end: the order is left alone, or lessened in its place, or
taken out and sent in again under the number of a new arrival. -/
inductive Modified (world : Surroundings) (id : OrderId) (request : ModifyRequest) (d : Desk) :
    ModifyResult → Desk → Prop
  | absent : ¬ d.book.Has id → Modified world id request d .notFound d
  | same {o : Order} : d.book.Holds o → o.id = id →
      SamePrice (request.price.or o.price) o.price → request.quantity.SameValue o.remaining →
      Modified world id request d (.modified ⟨o, []⟩) d
  | lessened {o o' : Order} {u : OrderUpdate} {n : Nat} {d' : Desk} :
      d.book.Holds o → o.id = id → SamePrice (request.price.or o.price) o.price →
      request.quantity < o.remaining → Book.reduce id request.quantity d.book = .ok o' d'.book →
      Order.setRemaining request.quantity o = .ok ⟨⟩ o' → Book.Rewritten o o' d.book d'.book →
      OrderUpdate.ofOrder o' world.now n = .ok u →
      d'.emitted = d.emitted ++ [.update u] →
      d'.counters.arrivals = d.counters.arrivals → d'.routes = d.routes →
      Modified world id request d (.modified ⟨o', []⟩) d'
  | requeued {o o' : Order} {b : Book} {r : OrderResult} {d' : Desk} :
      d.book.Holds o → o.id = id →
      ¬ (SamePrice (request.price.or o.price) o.price ∧ request.quantity ≤ o.remaining) →
      Book.take id d.book = .ok (some o) b → Book.Departed o d.book b →
      Order.setRemaining request.quantity { o with price := request.price.or o.price } =
        .ok ⟨⟩ o' →
      execute .priceTime world { o' with sequence := d.counters.arrivals + 1 } (d.rearrived b) =
        .ok r d' →
      Modified world id request d (.modified r) d'

section Modify

variable {id : OrderId} {d : Desk} {world : Surroundings} {request : ModifyRequest}

/-- An order at least as large as what is wanted, but neither of it nor smaller, is larger. -/
theorem not_le_of_requeue {q r : Quantity} {P : Prop} (h₁ : ¬ (P ∧ q.SameValue r))
    (h₂ : ¬ (P ∧ q < r)) : ¬ (P ∧ q ≤ r) := by
  rintro ⟨hp, hle⟩
  have hle : q.atoms ≤ r.atoms := hle
  by_cases hlt : q.atoms < r.atoms
  · exact h₂ ⟨hp, hlt⟩
  · exact h₁ ⟨hp, Int.le_antisymm hle (Int.not_lt.mp hlt)⟩

theorem lessen_of_ok {o : Order} {q : Quantity} {r : OrderResult} {d' : Desk}
    (hs : d.book.Sound) (ho : d.book.Holds o) (h : lessen world o.id q d = .ok r d') :
    ∃ o' u n, r = ⟨o', []⟩ ∧ Book.reduce o.id q d.book = .ok o' d'.book ∧
      Order.setRemaining q o = .ok ⟨⟩ o' ∧ Book.Rewritten o o' d.book d'.book ∧
      OrderUpdate.ofOrder o' world.now n = .ok u ∧ d'.emitted = d.emitted ++ [.update u] ∧
      Counted 0 d d' ∧ d'.routes = d.routes := by
  have hout := Book.reduce_outcome hs ho q
  rw [lessen_run] at h
  split at h
  · cases h
  · next o' b' hred =>
      rw [hred] at hout
      obtain ⟨-, -, hset, hrew⟩ := hout
      split at h
      · cases h
      · next hu =>
          cases h
          obtain ⟨u, n, hu, he, hb, hcounted, hr⟩ := ofOrder_of_emitUpdate hu
          have hreduced : Counted 0 d { d with book := b' } := .of_eq rfl rfl
          exact ⟨o', u, n, rfl, hb ▸ hred, hset, hb ▸ hrew, hu, he, hreduced.trans hcounted, hr⟩

theorem reenter_of_ok {o : Order} {price : Option Price} {q : Quantity} {r : OrderResult}
    {d' : Desk} (hs : d.book.Sound) (ho : d.book.Holds o)
    (h : reenter .priceTime world o.id price q d = .ok r d') :
    ∃ o' b, Book.take o.id d.book = .ok (some o) b ∧ Book.Departed o d.book b ∧
      Order.setRemaining q { o with price } = .ok ⟨⟩ o' ∧
      execute .priceTime world { o' with sequence := d.counters.arrivals + 1 } (d.rearrived b) =
        .ok r d' := by
  have hout := Book.take_outcome hs ho
  rw [reenter_run] at h
  split at h
  · cases h
  · cases h
  · next x b' htake =>
      rw [htake] at hout
      obtain ⟨hx, hdep⟩ := hout
      cases hx
      split at h
      · cases h
      · next o' hset => exact ⟨o', b', htake, hdep, hset, h⟩

theorem modified_of_ok {r : ModifyResult} {d' : Desk} (hs : d.book.Sound)
    (h : modifyOrder .priceTime world id request d = .ok r d') :
    Modified world id request d r d' := by
  rw [modifyOrder_run] at h
  cases hget : d.book.get? id with
  | none =>
      rw [hget] at h
      cases h
      refine .absent fun hid => ?_
      obtain ⟨o, ho, rfl⟩ := hid
      rw [hs.get?_eq ho] at hget
      cases hget
  | some o =>
      rw [hget] at h
      obtain ⟨ho, rfl⟩ := hs.get?_iff.mp hget
      dsimp only at h
      split at h
      · next hsame =>
          cases h
          exact .same ho rfl hsame.1 hsame.2
      · next hnsame =>
          split at h
          · next hless =>
              obtain ⟨res, hrun, rfl⟩ := modified_eq_ok h
              obtain ⟨o', u, n, rfl, hred, hset, hrew, hu, he, hcounted, hr⟩ :=
                lessen_of_ok hs ho hrun
              exact .lessened ho rfl hless.1 hless.2 hred hset hrew hu he hcounted.arrivals_eq hr
          · next hnless =>
              obtain ⟨res, hrun, rfl⟩ := modified_eq_ok h
              obtain ⟨o', b, htake, hdep, hset, hexec⟩ := reenter_of_ok hs ho hrun
              exact .requeued ho rfl (not_le_of_requeue hnsame hnless) htake hdep hset hexec

/-- A desk whose orders can all be changed or sent in again. -/
structure Ready (d : Desk) : Prop where
  sound : d.book.Sound
  live : ∀ x, d.book.Holds x → x.status.isLive = true
  sized : ∀ x, d.book.Holds x → x.Sized
  early : ∀ x, d.book.Holds x → x.sequence ≤ d.counters.arrivals

/-- An order that has been taken out of a `Ready` desk is fit to come in again under a new number.
-/
theorem Ready.enters {o o' : Order} {b : Book} {price : Option Price} {q : Quantity}
    (h : d.Ready) (ho : d.book.Holds o) (hq : 0 ≤ q) (hdep : Book.Departed o d.book b)
    (hset : Order.setRemaining q { o with price := price.or o.price } = .ok ⟨⟩ o') :
    Enters { o' with sequence := d.counters.arrivals + 1 } (d.rearrived b) := by
  obtain ⟨p, hp, -⟩ := h.sound.standsAt ho
  have hsized := h.sized o ho
  have hsized' := Order.setRemaining_sized hset ⟨hsized.nonneg, hsized.le⟩ hq
  have hlive := h.live o ho
  obtain ⟨f, quantity, -, -, rfl⟩ := Order.setRemaining_eq_ok hset
  refine ⟨hdep.sound, ?_, fun x hx => ?_, hlive, ⟨hsized'.nonneg, hsized'.le⟩, fun _ => ?_⟩
  · rintro ⟨x, hx, hid⟩
    exact ((hdep.holds_iff x).mp hx).2 hid
  · exact Nat.lt_succ_of_le (h.early x ((hdep.holds_iff x).mp hx).1)
  · rw [hp]
    cases price with
    | none => exact ⟨p, rfl⟩
    | some p' => exact ⟨p', rfl⟩

/-- The order has been changed where it stood. -/
def Lessened (id : OrderId) (d : Desk) (x : Order) : Prop :=
  x.id = id ∧ x.Sized ∧ ∃ o, d.book.Holds o ∧ o.Same x

/-- The order has the number of a new arrival. -/
def Requeued (id : OrderId) (d d' : Desk) (x : Order) : Prop :=
  x.id = id ∧ x.Sized ∧ x.sequence = d.counters.arrivals + 1 ∧ x.sequence ≤ d'.counters.arrivals

theorem lessen_worked {o : Order} {q : Quantity} (world : Surroundings) (hs : d.book.Sound)
    (ho : d.book.Holds o) (hsized : o.Sized) (hq : 0 ≤ q) :
    match lessen world o.id q d with
    | .error _ d' | .ok _ d' => Worked o.id (Lessened o.id d) d d' := by
  have hout := Book.reduce_outcome hs ho q
  have hrewritten {x : Order} {b' : Book} (hsame : o.Same x) (hx : x.Sized)
      (hrew : Book.Rewritten o x d.book b') :
      Worked o.id (Lessened o.id d) d { d with book := b' } := by
    refine ⟨hrew.sound, fun y hy => ?_, Nat.le_refl _, fun _ _ => rfl⟩
    rcases (hrew.holds_iff y).mp hy with rfl | ⟨hy, -⟩
    · exact Or.inr ⟨hsame.id_eq, hx, o, ho, hsame⟩
    · exact Or.inl ⟨y, hy, .none⟩
  rw [lessen_run]
  cases hred : Book.reduce o.id q d.book with
  | error f b' =>
      rw [hred] at hout
      rcases hout with rfl | ⟨hpos, hle, x, rfl, hrew⟩
      · exact .refl hs
      · exact hrewritten (Order.setRemaining_same q o)
          (Order.setRemaining_outcome_sized hsized hq hle) hrew
  | ok x b' =>
      rw [hred] at hout
      obtain ⟨hpos, hle, hset, hrew⟩ := hout
      have hx := Order.setRemaining_sized hset hsized hq
      obtain ⟨u, -, hu⟩ := emitUpdate_isOk world hx { d with book := b' }
      dsimp only
      rw [hu]
      exact (hrewritten (Order.same_of_setRemaining hset) hx hrew).told _

/-- What holds from the departure of an order on holds from before it. -/
theorem Worked.of_rearrived {o : Order} {b : Book} {New : Order → Prop} {d' : Desk}
    (h : Worked id New (d.rearrived b) d') (hid : id = o.id) (hdep : Book.Departed o d.book b) :
    Worked o.id New d d' := by
  subst hid
  refine ⟨h.sound, fun x hx => ?_, ?_, fun x hx => h.route_eq x ?_⟩
  · exact (h.holds x hx).imp_left fun ⟨y, hy, hf⟩ => ⟨y, ((hdep.holds_iff y).mp hy).1, hf⟩
  · exact Nat.le_trans (Nat.le_succ _) h.arrivals_le
  · exact hx.imp_right fun ⟨hne, hnot⟩ =>
      ⟨hne, fun hy => hnot ((Book.Worn.of_departed hdep).has hy)⟩

theorem reenter_worked {rule : MatchingRule} (hr : rule.Fills) {o : Order} {q : Quantity}
    (world : Surroundings) (price : Option Price) (h : d.Ready) (ho : d.book.Holds o)
    (hq : 0 ≤ q) :
    match reenter rule world o.id (price.or o.price) q d with
    | .error _ d' => Worked o.id (fun _ => False) d d'
    | .ok _ d' => Worked o.id (Requeued o.id d d') d d' := by
  have hout := Book.take_outcome h.sound ho
  rw [reenter_run]
  cases htake : Book.take o.id d.book with
  | error f b' =>
      rw [htake] at hout
      exact .of_departed rfl hout (Nat.le_refl _) fun _ _ => rfl
  | ok r b' =>
      rw [htake] at hout
      obtain ⟨rfl, hdep⟩ := hout
      dsimp only
      cases hset : Order.setRemaining q { o with price := price.or o.price } with
      | error f o' => exact .of_departed rfl hdep (Nat.le_refl _) fun _ _ => rfl
      | ok _ o' =>
          have hent := h.enters ho hq hdep hset
          have hwork := execute_worked hr world hent
          have hid : o'.id = o.id := (Order.same_of_setRemaining hset).id_eq
          dsimp only
          cases hrun : execute rule world
              { o' with sequence := d.counters.arrivals + 1 } (d.rearrived b') with
          | error f d' =>
              rw [hrun] at hwork
              exact hwork.of_rearrived hid hdep
          | ok r d' =>
              rw [hrun] at hwork
              refine (hwork.of_rearrived hid hdep).mono fun x hx => ?_
              have hseq : x.sequence = d.counters.arrivals + 1 := hx.same.sequence_eq
              refine ⟨hx.same.id_eq.trans hid, hx.sized hent.sized, hseq, ?_⟩
              rw [hseq]
              exact hwork.arrivals_le

/-- `modifyOrder` leaves the desk as it was, or as `lessen` or `reenter` leaves it. -/
theorem modifyOrder_leaves {P Q : Desk → Prop} {rule : MatchingRule} {world : Surroundings}
    {request : ModifyRequest} (hs : d.book.Sound) (hkept : Q d)
    (hlessen : ∀ o, d.book.Holds o → o.id = id →
      match lessen world id request.quantity d with
      | .error _ d' => P d'
      | .ok _ d' => Q d')
    (hreenter : ∀ o, d.book.Holds o → o.id = id →
      match reenter rule world id (request.price.or o.price) request.quantity d with
      | .error _ d' => P d'
      | .ok _ d' => Q d') :
    match modifyOrder rule world id request d with
    | .error _ d' => P d'
    | .ok _ d' => Q d' := by
  rw [modifyOrder_run]
  cases hget : d.book.get? id with
  | none => exact hkept
  | some o =>
      obtain ⟨ho, hid⟩ := hs.get?_iff.mp hget
      dsimp only
      by_cases hsame : SamePrice (request.price.or o.price) o.price ∧
          request.quantity.SameValue o.remaining
      · rw [if_pos hsame]
        exact hkept
      · rw [if_neg hsame]
        by_cases hless : SamePrice (request.price.or o.price) o.price ∧
            request.quantity < o.remaining
        · have hlessened := hlessen o ho hid
          rw [if_pos hless]
          cases hrun : lessen world id request.quantity d with
          | error f d' =>
              rw [hrun] at hlessened
              exact hlessened
          | ok r d' =>
              rw [hrun] at hlessened
              exact hlessened
        · have hreentered := hreenter o ho hid
          rw [if_neg hless]
          cases hrun : reenter rule world id (request.price.or o.price) request.quantity d with
          | error f d' =>
              rw [hrun] at hreentered
              exact hreentered
          | ok r d' =>
              rw [hrun] at hreentered
              exact hreentered

/-- `modifyOrder` changes an order where it stood, or gives it a new number; if it fails it has done
the first at most. -/
theorem modifyOrder_worked {rule : MatchingRule} (hr : rule.Fills) (world : Surroundings)
    (id : OrderId) (request : ModifyRequest) (h : d.Ready) (hq : 0 ≤ request.quantity) :
    match modifyOrder rule world id request d with
    | .error _ d' => Worked id (Lessened id d) d d'
    | .ok _ d' => Worked id (fun x => Lessened id d x ∨ Requeued id d d' x) d d' := by
  refine modifyOrder_leaves h.sound (.refl h.sound) ?_ ?_
  · rintro o ho rfl
    have hwork := lessen_worked world h.sound ho (h.sized o ho) hq
    cases hrun : lessen world o.id request.quantity d with
    | error f d' =>
        rw [hrun] at hwork
        exact hwork
    | ok r d' =>
        rw [hrun] at hwork
        exact hwork.mono fun _ => Or.inl
  · rintro o ho rfl
    have hwork := reenter_worked hr world request.price h ho hq
    cases hrun : reenter rule world o.id (request.price.or o.price) request.quantity d with
    | error f d' =>
        rw [hrun] at hwork
        exact hwork.mono fun _ => False.elim
    | ok r d' =>
        rw [hrun] at hwork
        exact hwork.mono fun _ => Or.inr

end Modify

/-! ## Refusals -/

/-- `refuse` can refuse a new order and tell of it. -/
theorem refuse_isOk (world : Surroundings) {o : Order} (reason : RejectReason) (d : Desk)
    (hnew : o.status = .new) (huntouched : o.remaining = o.quantity) :
    ∃ u : OrderUpdate, u.Declines o reason (d.counters.events + 1) ∧
      refuse world o reason d = .ok ⟨o.id, reason⟩ (d.stamped.told (.update u)) := by
  have hreject : o.reject = .ok { o with status := .rejected } := by
    unfold Order.reject Order.advance OrderStatus.advance
    rw [hnew]
    rfl
  obtain ⟨q, hq⟩ := Order.filled_isOk_of_untouched (o := { o with status := .rejected }) huntouched
  have hzero : q.SameValue 0 :=
    Decimal.sub_self (Order.filled_eq_ok.mp hq) (congrArg Decimal.atoms huntouched)
  unfold refuse
  rw [hreject, orViolate, Attempt.run_bind, Attempt.run_pure]
  dsimp only
  rw [Attempt.run_bind, emitRejected_run]
  unfold OrderUpdate.rejected OrderUpdate.ofOrder
  rw [hq]
  exact ⟨_, ⟨⟨rfl, rfl, rfl⟩, rfl, huntouched, hzero, rfl⟩, rfl⟩

end Desk

end Bourse
