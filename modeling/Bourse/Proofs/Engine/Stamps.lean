import Bourse.Proofs.Engine.Likeness
import Bourse.Proofs.Engine.Operations

/-!
# Numbers and times

When an order arrives it gets a number and a time, and so does everything that is told of
it. Of these a book asks only who came first. So work on the same book comes to the same
whatever the numbers are that are given out meanwhile and the times. That is a `Likeness`,
the one of `stamps`: the results are alike, what is told is alike, the books that are left
are alike, and the counters have gone as far.
-/

namespace Bourse

/-- Two orders that differ in their numbers and times alone. -/
structure Order.Alike (o o' : Order) : Prop where
  id_eq : o'.id = o.id
  symbol_eq : o'.symbol = o.symbol
  side_eq : o'.side = o.side
  orderType_eq : o'.orderType = o.orderType
  timeInForce_eq : o'.timeInForce = o.timeInForce
  price_eq : o'.price = o.price
  quantity_eq : o'.quantity = o.quantity
  remaining_eq : o'.remaining = o.remaining
  status_eq : o'.status = o.status

theorem Order.Alike.refl (o : Order) : o.Alike o := ⟨rfl, rfl, rfl, rfl, rfl, rfl, rfl, rfl, rfl⟩

/-- Two updates that differ in their numbers and times alone. -/
structure OrderUpdate.Alike (u u' : OrderUpdate) : Prop where
  id_eq : u'.orderId = u.orderId
  symbol_eq : u'.symbol = u.symbol
  status_eq : u'.status = u.status
  remaining_eq : u'.remaining = u.remaining
  filled_eq : u'.filled = u.filled
  reason_eq : u'.rejectReason = u.rejectReason

theorem Order.Alike.tells {o o' : Order} {now now' : Timestamp} {n n' : Nat} {u u' : OrderUpdate}
    (h : o.Alike o') (hu : OrderUpdate.ofOrder o now n = .ok u)
    (hu' : OrderUpdate.ofOrder o' now' n' = .ok u') : u.Alike u' := by
  have hfilled : o'.filled = o.filled := by
    unfold Order.filled
    rw [h.quantity_eq, h.remaining_eq]
  obtain ⟨f, hf, rfl⟩ := map_eq_ok.mp hu
  obtain ⟨f', hf', rfl⟩ := map_eq_ok.mp hu'
  rw [hfilled, hf] at hf'
  cases hf'
  exact ⟨h.id_eq, h.symbol_eq, h.status_eq, h.remaining_eq, rfl, rfl⟩

/-- Orders are alike if they differ in their numbers and times alone. -/
def Likeness.stamps : Likeness where
  Alike := Order.Alike
  Tells := OrderUpdate.Alike
  refl := .refl
  kin h := ⟨h.id_eq, h.symbol_eq, h.side_eq, h.orderType_eq, h.timeInForce_eq, h.price_eq,
    h.remaining_eq, congrArg OrderStatus.isLive h.status_eq⟩
  stand h _ _ := ⟨h.id_eq, h.symbol_eq, h.side_eq, h.orderType_eq, h.timeInForce_eq, h.price_eq,
    h.quantity_eq, rfl, rfl⟩
  tells h := h.tells

/-- Two accepted orders that are `Alike`, with trades that are. -/
structure OrderResult.Alike (r r' : OrderResult) : Prop where
  order : r.order.Alike r'.order
  trades : List.Forall₂ Trade.Alike r.trades r'.trades

theorem OrderResult.Alike.untraded {o o' : Order} (h : o.Alike o') :
    OrderResult.Alike ⟨o, []⟩ ⟨o', []⟩ := ⟨h, .nil⟩

/-- The same has become of two requests to modify. -/
inductive ModifyResult.Alike : ModifyResult → ModifyResult → Prop
  | modified {r r' : OrderResult} : r.Alike r' → Alike (.modified r) (.modified r')
  | notFound : Alike .notFound .notFound
  | rejected (reason : RejectReason) : Alike (.rejected reason) (.rejected reason)

namespace Desk

/-- Work at two desks that has told of the same, has left books that are alike, and has counted the
same. -/
structure Alike (d d' c c' : Desk) : Prop where
  events : List.Forall₂ (Event.Like .stamps) d'.emitted c'.emitted
  book : d'.book.Like .stamps c'.book
  counters : Counters.Apace d.counters d'.counters c.counters c'.counters

variable {world world' : Surroundings} {o x : Order} {d d' c c' : Desk} {id : OrderId}

theorem Alike.idle (hbook : c.book = d.book) (hd : d.emitted = []) (hc : c.emitted = []) :
    Alike d d c c where
  events := by
    rw [hd, hc]
    exact .nil
  book := by
    rw [hbook]
    exact .refl _ _
  counters := .refl _ _

theorem Alike.one {u u' : OrderUpdate} (hbook : c'.book = d'.book) (hd : d.emitted = [])
    (hc : c.emitted = []) (hu : u.Alike u') (he : d'.emitted = d.emitted ++ [.update u])
    (he' : c'.emitted = c.emitted ++ [.update u']) (hcounted : Counted 0 d d')
    (hcounted' : Counted 0 c c') : Alike d d' c c' where
  events := by
    rw [he, he', hd, hc]
    exact .cons (.update hu) .nil
  book := by
    rw [hbook]
    exact .refl _ _
  counters := hcounted.apace hcounted' (by rw [he, he', hd, hc]; rfl)

theorem Alike.of_rearrived {b b' : Book} (h : Alike (d.rearrived b) d' (c.rearrived b') c') :
    Alike d d' c c' where
  events := h.events
  book := h.book
  counters := (Counters.apace_arrival d.counters c.counters).trans h.counters

/-- What `Enters` comes after everything that is there. -/
theorem Enters.abreast (h : Enters o d) (h' : Enters x c) (hbook : c.book = d.book) (side : Side) :
    o.Abreast x (d.book.ladder side).orders :=
  Order.abreast_of_late (fun y hy => h.late y (h.sound.holds_of_mem hy))
    (fun y hy => h'.late y (hbook ▸ h.sound.holds_of_mem hy))

theorem execute_alike {r r' : OrderResult} (h : Enters o d) (h' : Enters x c) (ho : o.Alike x)
    (hbook : c.book = d.book) (hd : d.emitted = []) (hc : c.emitted = [])
    (hrun : execute .priceTime world o d = .ok r d')
    (hrun' : execute .priceTime world' x c = .ok r' c') : r.Alike r' ∧ Alike d d' c c' := by
  have hdone := executed_of_ok h.sound hrun
  have hdone' := executed_of_ok h'.sound hrun'
  obtain ⟨hlike, -⟩ :=
    hdone.like (L := .stamps) hdone' ho hbook h.sound hd hc (h.abreast h' hbook _)
  have hlength : c'.emitted.length + d.emitted.length = d'.emitted.length + c.emitted.length := by
    rw [hd, hc, hlike.events.length_eq]
  exact ⟨⟨hlike.order, hlike.trades⟩, hlike.events, hlike.book,
    hdone.counters_like hdone' (Likeness.stamps.kin ho) hbook hlength⟩

/-- What is `Cancelled` is the same order, whenever that happens. -/
theorem Cancelled.alike {r r' : CancelResult} (h : Cancelled world id d r d')
    (h' : Cancelled world' id c r' c') (hlive : ∀ y, d.book.Holds y → y.status.isLive = true)
    (hbook : c.book = d.book) (hd : d.emitted = []) (hc : c.emitted = []) :
    r' = r ∧ Alike d d' c c' := by
  cases h with
  | absent hnot =>
      cases h' with
      | absent _ => exact ⟨rfl, .idle hbook hd hc⟩
      | dead ho hid _ _ => exact absurd ⟨_, hbook ▸ ho, hid⟩ hnot
      | found ho hid _ _ _ _ _ _ _ => exact absurd ⟨_, hbook ▸ ho, hid⟩ hnot
  | dead ho _ hdead _ =>
      rw [hlive _ ho] at hdead
      cases hdead
  | found ho hid _ _ hu he _ hcounted htake =>
      cases h' with
      | absent hnot => exact absurd ⟨_, ho, hid⟩ (hbook ▸ hnot)
      | dead ho' _ hdead _ =>
          rw [hlive _ (hbook ▸ ho')] at hdead
          cases hdead
      | found _ _ _ _ hu' he' _ hcounted' htake' =>
          rw [hbook, htake] at htake'
          injection htake' with heq hleft
          cases heq
          have htold := (Order.Alike.refl _).tells hu hu'
          exact ⟨rfl, .one hleft.symm hd hc htold he he' hcounted hcounted'⟩

theorem lessen_alike {q : Quantity} {r r' : OrderResult} (hs : d.book.Sound) (ho : d.book.Holds o)
    (hbook : c.book = d.book) (hd : d.emitted = []) (hc : c.emitted = [])
    (hrun : lessen world o.id q d = .ok r d') (hrun' : lessen world' o.id q c = .ok r' c') :
    r.Alike r' ∧ Alike d d' c c' := by
  obtain ⟨_, _, _, rfl, hred, -, -, hu, he, hcounted, -⟩ := lessen_of_ok hs ho hrun
  obtain ⟨_, _, _, rfl, hred', -, -, hu', he', hcounted', -⟩ :=
    lessen_of_ok (hbook ▸ hs) (hbook ▸ ho) hrun'
  rw [hbook, hred] at hred'
  injection hred' with heq hleft
  cases heq
  have htold := (Order.Alike.refl _).tells hu hu'
  exact ⟨.untraded (.refl _), .one hleft.symm hd hc htold he he' hcounted hcounted'⟩

theorem reenter_alike {price : Option Price} {q : Quantity} {r r' : OrderResult} (h : d.Ready)
    (h' : c.Ready) (ho : d.book.Holds o) (hq : 0 < q) (hbook : c.book = d.book)
    (hd : d.emitted = []) (hc : c.emitted = [])
    (hrun : reenter .priceTime world o.id (price.or o.price) q d = .ok r d')
    (hrun' : reenter .priceTime world' o.id (price.or o.price) q c = .ok r' c') :
    r.Alike r' ∧ Alike d d' c c' := by
  have ho' : c.book.Holds o := hbook ▸ ho
  obtain ⟨o₁, b, htake, hdep, hset, hexec⟩ := reenter_of_ok h.sound ho hrun
  obtain ⟨o₂, b', htake', hdep', hset', hexec'⟩ := reenter_of_ok h'.sound ho' hrun'
  rw [hset] at hset'
  cases hset'
  rw [hbook, htake] at htake'
  injection htake' with _ hleft
  subst hleft
  obtain ⟨hr, halike⟩ := execute_alike (h.enters ho (Int.le_of_lt hq) hdep hset)
    (h'.enters ho' (Int.le_of_lt hq) hdep' hset) ⟨rfl, rfl, rfl, rfl, rfl, rfl, rfl, rfl, rfl⟩ rfl
    hd hc hexec hexec'
  exact ⟨hr, halike.of_rearrived⟩

/-- `modifyOrder` comes to the same, whatever number an order that is sent in again is given. -/
theorem modifyOrder_alike {request : ModifyRequest} {r r' : ModifyResult} (h : d.Ready)
    (h' : c.Ready) (hq : 0 < request.quantity) (hbook : c.book = d.book) (hd : d.emitted = [])
    (hc : c.emitted = []) (hrun : modifyOrder .priceTime world id request d = .ok r d')
    (hrun' : modifyOrder .priceTime world' id request c = .ok r' c') :
    r.Alike r' ∧ Alike d d' c c' := by
  rw [modifyOrder_run] at hrun hrun'
  rw [hbook] at hrun'
  cases hget : d.book.get? id with
  | none =>
      rw [hget] at hrun hrun'
      cases hrun
      cases hrun'
      exact ⟨.notFound, .idle hbook hd hc⟩
  | some o =>
      rw [hget] at hrun hrun'
      obtain ⟨ho, rfl⟩ := h.sound.get?_iff.mp hget
      dsimp only at hrun hrun'
      by_cases hsame : SamePrice (request.price.or o.price) o.price ∧
          request.quantity.SameValue o.remaining
      · rw [if_pos hsame] at hrun hrun'
        cases hrun
        cases hrun'
        exact ⟨.modified (.untraded (.refl o)), .idle hbook hd hc⟩
      · rw [if_neg hsame] at hrun hrun'
        by_cases hless : SamePrice (request.price.or o.price) o.price ∧
            request.quantity < o.remaining
        · rw [if_pos hless] at hrun hrun'
          obtain ⟨res, hdone, rfl⟩ := modified_eq_ok hrun
          obtain ⟨res', hdone', rfl⟩ := modified_eq_ok hrun'
          obtain ⟨hr, halike⟩ := lessen_alike h.sound ho hbook hd hc hdone hdone'
          exact ⟨.modified hr, halike⟩
        · rw [if_neg hless] at hrun hrun'
          obtain ⟨res, hdone, rfl⟩ := modified_eq_ok hrun
          obtain ⟨res', hdone', rfl⟩ := modified_eq_ok hrun'
          obtain ⟨hr, halike⟩ := reenter_alike h h' ho hq hbook hd hc hdone hdone'
          exact ⟨.modified hr, halike⟩

/-- `refuse` of a new order can be told, and tells of the order as it came. -/
theorem refuse_told (world : Surroundings) {o : Order} (reason : RejectReason) (d : Desk)
    (hnew : o.status = .new) (huntouched : o.remaining = o.quantity) :
    ∃ u, OrderUpdate.rejected { o with status := .rejected } reason world.now
        (d.counters.events + 1) = .ok u ∧
      refuse world o reason d = .ok ⟨o.id, reason⟩ (d.stamped.told (.update u)) := by
  obtain ⟨u, -, hrun⟩ := refuse_isOk world reason d hnew huntouched
  have hreject : o.reject = .ok { o with status := .rejected } := by
    unfold Order.reject Order.advance OrderStatus.advance
    rw [hnew]
    rfl
  refine ⟨u, ?_, hrun⟩
  unfold refuse at hrun
  rw [hreject, orViolate, Attempt.run_bind, Attempt.run_pure] at hrun
  dsimp only at hrun
  rw [Attempt.run_bind, emitRejected_run] at hrun
  cases hu : OrderUpdate.rejected { o with status := .rejected } reason world.now
      (d.counters.events + 1) with
  | error f => rw [hu] at hrun; cases hrun
  | ok u' =>
      rw [hu] at hrun
      injection hrun with _ hdesk
      have htold : d.emitted ++ [Event.update u'] = d.emitted ++ [Event.update u] :=
        congrArg Desk.emitted hdesk
      cases List.append_cancel_left htold
      rfl

end Desk

theorem Order.Alike.rejected {o o' : Order} {reason : RejectReason} {now now' : Timestamp}
    {n n' : Nat} {u u' : OrderUpdate} (h : o.Alike o')
    (hu : OrderUpdate.rejected o reason now n = .ok u)
    (hu' : OrderUpdate.rejected o' reason now' n' = .ok u') : u.Alike u' := by
  obtain ⟨v, hv, rfl⟩ := map_eq_ok.mp hu
  obtain ⟨v', hv', rfl⟩ := map_eq_ok.mp hu'
  have halike := h.tells hv hv'
  exact ⟨halike.id_eq, halike.symbol_eq, halike.status_eq, halike.remaining_eq, halike.filled_eq,
    rfl⟩

end Bourse
