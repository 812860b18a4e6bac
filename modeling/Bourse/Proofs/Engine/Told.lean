import Bourse.Proofs.Engine.Lively
import Bourse.Proofs.Matching.Balance

/-!
# What updates tell of the books

An update is a copy of an order at one moment, and for a maker that moment lies in the
middle of a matching. It is true at the end of the call all the same: the book `Bears` it
out. A maker that keeps something has used the incoming order up, so nothing comes after
it; a maker with nothing left is gone, and no call brings it back (`Deal.maker_cases`). An
order that no update names has not been touched. So what the books were before a call, and
what the call has `Told`, say together what the books are after it.
-/

namespace Bourse

/-- The update is a copy of how the order stands. -/
structure OrderUpdate.Shows (u : OrderUpdate) (o : Order) : Prop where
  id_eq : u.orderId = o.id
  symbol_eq : u.symbol = o.symbol
  status_eq : u.status = o.status
  remaining_eq : u.remaining = o.remaining
  filled_eq : o.filled = .ok u.filled

theorem OrderUpdate.shows_of_ofOrder {o : Order} {now : Timestamp} {n : Nat} {u : OrderUpdate}
    (h : ofOrder o now n = .ok u) : u.Shows o := by
  obtain ⟨f, hf, rfl⟩ := map_eq_ok.mp h
  exact ⟨rfl, rfl, rfl, rfl, hf⟩

/-- The update that an event tells of. -/
def Event.update? : Event → Option OrderUpdate
  | .trade _ => none
  | .update u => some u

namespace Order

variable {o o' : Order}

/-- Of an order that had something left, nothing is left only by a fill. -/
theorem Filled.status_of_used_up (h : Filled o o') (hpos : 0 < o.remaining)
    (hle : o'.remaining ≤ 0) : o'.status = .filled := by
  cases h with
  | none => exact absurd hpos (Int.not_lt.mpr hle)
  | fill _ hf => exact (fill_filled_iff hf).mpr (Int.le_antisymm hle (fill_remaining_nonneg hf))

theorem Filled.unrejected (h : Filled o o') (hlive : o.status.isLive = true) :
    o'.status ≠ .rejected := by
  cases h with
  | none =>
      intro hr
      rw [hr] at hlive
      cases hlive
  | fill _ hf =>
      rw [fill_status hf]
      split <;> decide

end Order

namespace Book

/-- The book bears out how an order stands: if it has come to its end it rests no more, and
otherwise it rests just so. -/
structure Bears (b : Book) (o : Order) : Prop where
  gone : o.status.isTerminal = true → ¬ b.Has o.id
  rests : o.status.isTerminal = false → b.Holds o

/-- Updates tell all that has happened to a book on behalf of an identity. -/
structure Told (id : OrderId) (us : List OrderUpdate) (b b' : Book) : Prop where
  unrejected : ∀ u ∈ us, u.status ≠ .rejected
  shown : ∀ u ∈ us, ∃ o, u.Shows o ∧ b'.Bears o
  known : ∀ u ∈ us, u.orderId = id ∨ b.Has u.orderId
  untold : ∀ x, (∀ u ∈ us, u.orderId ≠ x.id) → (b'.Holds x ↔ b.Holds x)

variable {b b' : Book} {o x : Order}

theorem Bears.of_live (ho : b.Holds o) (hlive : o.status.isLive = true) : b.Bears o where
  gone ht := by
    rw [OrderStatus.isTerminal_eq_not_isLive, hlive] at ht
    cases ht
  rests _ := ho

theorem Bears.of_terminal (ht : o.status.isTerminal = true) (hnot : ¬ b.Has o.id) : b.Bears o where
  gone _ := hnot
  rests hl := by
    rw [ht] at hl
    cases hl

/-- The arrival of another order changes nothing about what a book `Bears` out. -/
theorem Bears.arrived (h : b.Bears o) (ha : Arrived x b b') (hne : o.id ≠ x.id) : b'.Bears o where
  gone ht := by
    rintro ⟨y, hy, hid⟩
    rcases (ha.holds_iff y).mp hy with rfl | hy
    · exact hne hid.symm
    · exact h.gone ht ⟨y, hy, hid⟩
  rests hl := (ha.holds_iff o).mpr (Or.inr (h.rests hl))

/-- A call that tells nothing has left the book as it is. -/
theorem Told.refl (id : OrderId) (b : Book) : Told id [] b b where
  unrejected _ hu := by cases hu
  shown _ hu := by cases hu
  known _ hu := by cases hu
  untold _ _ := Iff.rfl

/-- One update tells all, if nothing else has changed. -/
theorem Told.one {u : OrderUpdate} (hu : u.Shows o) (hunrejected : o.status ≠ .rejected)
    (hb : b'.Bears o) (helse : ∀ x, x.id ≠ o.id → (b'.Holds x ↔ b.Holds x)) :
    Told o.id [u] b b' where
  unrejected v hv := by rw [List.mem_singleton.mp hv, hu.status_eq]; exact hunrejected
  shown v hv := ⟨o, by rw [List.mem_singleton.mp hv]; exact hu, hb⟩
  known v hv := Or.inl (by rw [List.mem_singleton.mp hv, hu.id_eq])
  untold x hx := helse x fun hid => hx u List.mem_cons_self (hu.id_eq.trans hid.symm)

end Book

namespace Encounter

variable {e e' : Encounter} {fill : Fill} {level : Level} {post : List Level} {maker : Order}
  {ys : List Order} {total : Quantity} {moments : List (Encounter × Fill)}

/-- A trade either uses its maker up, and then it is gone, or it uses the incoming order up. -/
theorem Deal.maker_cases (h : Deal e fill e' level post maker ys total) :
    (fill.maker.status = .filled ∧ ¬ e'.book.Has fill.maker.id) ∨
      (e'.incoming.remaining.SameValue 0 ∧ fill.maker.status = .partiallyFilled ∧
        e'.book.Holds fill.maker) := by
  have hid := (Order.fill_same h.maker_fill).id_eq
  have hstatus := Order.fill_status h.maker_fill
  have hbook := h.book
  split at hbook
  · next hz =>
      obtain ⟨_, -, -, hdep⟩ := hbook
      refine Or.inl ⟨hstatus.trans (if_pos hz), ?_⟩
      rintro ⟨x, hx, hxid⟩
      exact ((hdep.holds_iff x).mp hx).2 (hxid.trans hid)
  · next hz =>
      refine Or.inr ⟨?_, hstatus.trans (if_neg hz), (hbook.2.holds_iff _).mpr (Or.inl rfl)⟩
      refine h.used_up_or_whole.resolve_right fun hwhole => hz ?_
      refine (Order.fill_used_up_iff h.maker_fill).mpr ?_
      rw [hwhole]
      exact Decimal.SameValue.refl _

theorem Deal.untouched (h : Deal e fill e' level post maker ys total) {x : Order}
    (hne : x.id ≠ fill.maker.id) : e'.book.Holds x ↔ e.book.Holds x := by
  have hid := (Order.fill_same h.maker_fill).id_eq
  have hbook := h.book
  split at hbook
  · obtain ⟨_, -, -, hdep⟩ := hbook
    rw [hdep.holds_iff, ← hid]
    exact and_iff_left hne
  · rw [hbook.2.holds_iff, ← hid]
    constructor
    · rintro (rfl | ⟨hx, -⟩)
      · exact absurd rfl hne
      · exact hx
    · exact fun hx => Or.inr ⟨hx, hne⟩

/-- However early a maker has traded, the book `Bears` it out at the end as it stood then. -/
theorem Trades.bears (h : Trades e moments e') (hs : e.book.Sound) {m : Encounter × Fill}
    (hm : m ∈ moments) : e'.book.Bears m.2.maker := by
  induction h with
  | none => cases hm
  | some hstep htail ih =>
      obtain ⟨_, _, _, _, _, hdeal⟩ := hstep.deal hs
      have hw := hdeal.worn hs
      rcases List.mem_cons.mp hm with rfl | hm
      · rcases hdeal.maker_cases with ⟨hstatus, hgone⟩ | ⟨hz, hstatus, hrests⟩
        · refine .of_terminal (by rw [hstatus]; rfl) fun hlater => hgone ?_
          exact (htail.worn hw.sound).has hlater
        · -- The incoming order is used up, so this was the last trade.
          cases htail with
          | none => exact .of_live hrests (by rw [hstatus]; rfl)
          | some hstep' _ => exact absurd hstep'.left (Int.not_lt.mpr (Int.le_of_eq hz))
      · exact ih hw.sound hm

/-- A maker that has traded is filled, in whole or in part. -/
theorem Trades.maker_status (h : Trades e moments e') (hs : e.book.Sound)
    {m : Encounter × Fill} (hm : m ∈ moments) :
    m.2.maker.status = .filled ∨ m.2.maker.status = .partiallyFilled := by
  obtain ⟨hw, -, next, hstep⟩ := h.moment hs hm
  obtain ⟨_, _, _, _, _, hdeal⟩ := hstep.deal hw.sound
  rw [Order.fill_status hdeal.maker_fill]
  split
  · exact Or.inl rfl
  · exact Or.inr rfl

/-- Who has not traded has not been touched. -/
theorem Trades.untouched (h : Trades e moments e') (hs : e.book.Sound) {x : Order}
    (hx : ∀ m ∈ moments, m.2.maker.id ≠ x.id) : e'.book.Holds x ↔ e.book.Holds x := by
  induction h with
  | none => exact Iff.rfl
  | some hstep _ ih =>
      obtain ⟨_, _, _, _, _, hdeal⟩ := hstep.deal hs
      rw [ih (hdeal.worn hs).sound fun m hm => hx m (List.mem_cons_of_mem _ hm)]
      exact hdeal.untouched fun hid => hx _ List.mem_cons_self hid.symm

end Encounter

namespace Desk

variable {world : Surroundings} {o : Order} {d d' : Desk} {r : OrderResult} {id : OrderId}

/-- The updates among the events of a desk. -/
def updates (d : Desk) : List OrderUpdate := d.emitted.filterMap Event.update?

/-- The updates of what `Narrates` fills show their makers, and all of them. -/
theorem Narrates.updates {taker : Order} {fills : List Fill} {trades : List Trade}
    {events : List Event} (h : Narrates world taker fills trades events) :
    (∀ u ∈ events.filterMap Event.update?, ∃ fill ∈ fills, u.Shows fill.maker) ∧
      ∀ fill ∈ fills, ∃ u ∈ events.filterMap Event.update?, u.Shows fill.maker := by
  induction h with
  | none => exact ⟨fun u hu => (by cases hu), fun fill hf => (by cases hf)⟩
  | @some fill fills trades events n m u hu _ ih =>
      have hshows := OrderUpdate.shows_of_ofOrder hu
      have hevents : (Event.trade (tradeOf world taker fill n) :: .update u :: events).filterMap
          Event.update? = u :: events.filterMap Event.update? := rfl
      rw [hevents]
      refine ⟨fun v hv => ?_, fun x hx => ?_⟩
      · rcases List.mem_cons.mp hv with rfl | hv
        · exact ⟨fill, List.mem_cons_self, hshows⟩
        · obtain ⟨x, hx, hvx⟩ := ih.1 v hv
          exact ⟨x, List.mem_cons_of_mem _ hx, hvx⟩
      · rcases List.mem_cons.mp hx with rfl | hx
        · exact ⟨u, List.mem_cons_self, hshows⟩
        · obtain ⟨v, hv, hvx⟩ := ih.2 x hx
          exact ⟨v, List.mem_cons_of_mem _ hv, hvx⟩

/-- What becomes of an order after its matching: the book `Bears` it out, and nothing else that
rests has changed. -/
theorem Settled.bears {e : Encounter} {o' : Order} {b : Book} (h : Settled e o' b)
    (hent : Enters o d) (hpos : 0 < o.remaining) (hfilled : o.Filled e.incoming)
    (hw : Book.Worn d.book e.book) :
    o'.status ≠ .rejected ∧ b.Bears o' ∧ (b = e.book ∨ Book.Arrived o' e.book b) := by
  have hgone : ¬ e.book.Has e.incoming.id := by
    rw [hfilled.same.id_eq]
    exact fun hx => hent.free (hw.has hx)
  cases h with
  | done hle =>
      have hstatus := hfilled.status_of_used_up hpos hle
      exact ⟨hfilled.unrejected hent.live, .of_terminal (by rw [hstatus]; rfl) hgone, Or.inl rfl⟩
  | dropped _ _ _ => exact ⟨nofun, .of_terminal rfl hgone, Or.inl rfl⟩
  | rests hleft hwaits hins =>
      have harr := hent.arrived hfilled hw hwaits.1 hleft hins
      exact ⟨hfilled.unrejected hent.live, .of_live ((harr.holds_iff _).mpr (Or.inl rfl))
        (hfilled.isLive hent.live hleft), Or.inr harr⟩

/-- `Executed` work has `Told` of every order it has touched, its own among them. -/
theorem Executed.told (h : Executed world o d r d') (hent : Enters o d) (hpos : 0 < o.remaining)
    (he : d.emitted = []) :
    Book.Told o.id d'.updates d.book d'.book ∧ ∃ u ∈ d'.updates, u.orderId = o.id := by
  have hs := hent.sound
  unfold updates
  cases h with
  | @killed u n d' _ _ hbook hu hemitted =>
      have hshows := OrderUpdate.shows_of_ofOrder hu
      rw [hemitted, he, hbook]
      refine ⟨Book.Told.one (o := { o with status := .cancelled }) hshows nofun
        (.of_terminal rfl hent.free) fun _ _ => Iff.rfl, u, List.mem_cons_self, hshows.id_eq⟩
  | @matched moments final o' _ events u _ d' _ hm _ hstory hset hu hemitted =>
      have hfilled := hm.filled hs
      have hw := hm.worn hs
      have hid : o'.id = o.id := hset.same.id_eq.trans hfilled.same.id_eq
      have hshows := OrderUpdate.shows_of_ofOrder hu
      obtain ⟨hunrejected, hbears, hbook⟩ := hset.bears hent hpos hfilled hw
      obtain ⟨hsaid, htold⟩ := hstory.updates
      have hmaker {m : Encounter × Fill} (hm' : m ∈ moments) : d.book.Has m.2.maker.id := by
        obtain ⟨x, hx, hf⟩ := hm.makers hs hm'
        exact ⟨x, hx, hf.same.id_eq.symm⟩
      have hcases {v : OrderUpdate} (hv : v ∈ events.filterMap Event.update? ++ [u]) :
          (∃ m ∈ moments, v.Shows m.2.maker) ∨ v = u := by
        rcases List.mem_append.mp hv with hv | hv
        · obtain ⟨fill, hf, hshows⟩ := hsaid v hv
          obtain ⟨m, hm', rfl⟩ := List.mem_map.mp hf
          exact Or.inl ⟨m, hm', hshows⟩
        · exact Or.inr (List.mem_singleton.mp hv)
      rw [hemitted, he, List.nil_append, List.filterMap_append]
      refine ⟨⟨fun v hv => ?_, fun v hv => ?_, fun v hv => ?_, fun x hx => ?_⟩, u,
        List.mem_append_right _ List.mem_cons_self, hshows.id_eq.trans hid⟩
      · rcases hcases hv with ⟨m, hm', hv'⟩ | rfl
        · rw [hv'.status_eq]
          rcases hm.maker_status hs hm' with hstatus | hstatus <;> rw [hstatus] <;> decide
        · rw [hshows.status_eq]
          exact hunrejected
      · rcases hcases hv with ⟨m, hm', hv'⟩ | rfl
        · refine ⟨_, hv', ?_⟩
          rcases hbook with hbook | harr
          · rw [hbook]
            exact hm.bears hs hm'
          · refine (hm.bears hs hm').arrived harr fun heq => hent.free ?_
            rw [← hid, ← heq]
            exact hmaker hm'
        · exact ⟨o', hshows, hbears⟩
      · rcases hcases hv with ⟨m, hm', hv'⟩ | rfl
        · rw [hv'.id_eq]
          exact Or.inr (hmaker hm')
        · exact Or.inl (hshows.id_eq.trans hid)
      · have hown : x ≠ o' := by
          rintro rfl
          exact hx u (List.mem_append_right _ List.mem_cons_self) hshows.id_eq
        rw [← hm.untouched hs fun m hm' => ?_]
        · rcases hbook with hbook | harr
          · rw [hbook]
          · rw [harr.holds_iff]
            exact or_iff_right hown
        · obtain ⟨v, hv, hv'⟩ := htold m.2 (List.mem_map_of_mem hm')
          rw [← hv'.id_eq]
          exact hx v (List.mem_append_left _ hv)

theorem Cancelled.told {r : CancelResult} (h : Cancelled world id d r d') (hl : d.book.Lively)
    (he : d.emitted = []) : Book.Told id d'.updates d.book d'.book := by
  unfold updates
  cases h with
  | absent _ =>
      rw [he]
      exact .refl id _
  | dead ho _ hdead _ =>
      rw [(hl _ ho).1] at hdead
      cases hdead
  | @found o u _ d' ho hid _ hdep hu hemitted =>
      subst hid
      rw [hemitted, he]
      refine Book.Told.one (o := { o with status := .cancelled })
        (OrderUpdate.shows_of_ofOrder hu) nofun (.of_terminal rfl ?_) fun x hne => ?_
      · rintro ⟨x, hx, hxid⟩
        exact ((hdep.holds_iff x).mp hx).2 hxid
      · rw [hdep.holds_iff]
        exact and_iff_left hne

theorem Modified.told {request : ModifyRequest} {r : ModifyResult}
    (h : Modified world id request d r d') (hready : d.Ready) (hl : d.book.Lively)
    (hq : 0 < request.quantity) (he : d.emitted = []) :
    Book.Told id d'.updates d.book d'.book := by
  cases h with
  | absent _ =>
      unfold updates
      rw [he]
      exact .refl id _
  | same _ _ _ _ =>
      unfold updates
      rw [he]
      exact .refl id _
  | @lessened o o' u _ d' ho hid _ _ _ hset hrew hu hemitted _ =>
      subst hid
      obtain ⟨_, _, -, -, rfl⟩ := Order.setRemaining_eq_ok hset
      have hlive : o.status.isLive = true := (hl o ho).1
      unfold updates
      rw [hemitted, he]
      refine Book.Told.one (o := { o with remaining := request.quantity, quantity := _ })
        (OrderUpdate.shows_of_ofOrder hu) ?_ ?_ fun x hne => ?_
      · intro hr
        change o.status = .rejected at hr
        rw [hr] at hlive
        cases hlive
      · exact .of_live ((hrew.holds_iff _).mpr (Or.inl rfl)) hlive
      · rw [hrew.holds_iff]
        constructor
        · rintro (rfl | ⟨hx, -⟩)
          · exact absurd rfl hne
          · exact hx
        · exact fun hx => Or.inr ⟨hx, hne⟩
  | @requeued o o' b r d' ho hid _ _ hdep hset hexec =>
      subst hid
      have hent := hready.enters ho (Int.le_of_lt hq) hdep hset
      obtain ⟨_, _, -, -, rfl⟩ := Order.setRemaining_eq_ok hset
      obtain ⟨htold, u, hu, huid⟩ :=
        (executed_of_ok hent.sound hexec).told hent hq he
      refine ⟨htold.unrejected, htold.shown, fun v hv => ?_, fun x hx => ?_⟩
      · exact (htold.known v hv).imp_right (Book.Worn.of_departed hdep).has
      · rw [htold.untold x hx]
        refine (hdep.holds_iff x).trans (and_iff_left fun hid => ?_)
        exact hx u hu (huid.trans hid.symm)

end Desk

namespace Engine

/-- The books of the engine bear out how an order stands. -/
structure Bears (e : Engine) (o : Order) : Prop where
  gone : o.status.isTerminal = true → ∀ i x, e.Rests i x → x.id ≠ o.id
  rests : o.status.isTerminal = false → ∃ i, e.Rests i o

/-- Updates tell all that has happened to the books of an engine. -/
structure Told (us : List OrderUpdate) (e e' : Engine) : Prop where
  unrejected : ∀ u ∈ us, u.status ≠ .rejected
  shown : ∀ u ∈ us, ∃ o, u.Shows o ∧ e'.Bears o
  untold : ∀ i x, (∀ u ∈ us, u.orderId ≠ x.id) → (e'.Rests i x ↔ e.Rests i x)

variable {e e' : Engine} {us : List OrderUpdate} {i : Nat} {slot : Slot} {id : OrderId} {d : Desk}
  {world : Surroundings}

/-- Who tells nothing has changed nothing. -/
theorem Told.silent (hrests : ∀ i x, e'.Rests i x ↔ e.Rests i x) : Told [] e e' where
  unrejected _ hu := by cases hu
  shown _ hu := by cases hu
  untold i x _ := hrests i x

/-- What is `Told` of one book is told of the engine, for no identity rests in two books. -/
theorem Told.leave (hs : e.Sound) (hslot : e.slots[i]? = some slot)
    (hroute : ∃ r, e.routes.get? id = some r ∧ r.slot = i)
    (ht : Book.Told id us slot.book d.book) : Told us e (e.leave i d) := by
  have hlocal {u : OrderUpdate} (hu : u ∈ us) {j : Nat} {x : Order} (hx : e.Rests j x)
      (hid : x.id = u.orderId) : j = i := by
    rcases ht.known u hu with heq | ⟨y, hy, hyid⟩
    · obtain ⟨r, hr, rfl⟩ := hroute
      obtain ⟨r', hr', rfl⟩ := hs.routed hx
      rw [hid, heq, hr] at hr'
      cases hr'
      rfl
    · exact hs.slot_unique hx ⟨slot, hslot, hy⟩ (hid.trans hyid.symm)
  refine ⟨ht.unrejected, fun u hu => ?_, fun j x hx => ?_⟩
  · obtain ⟨o, hshows, hbears⟩ := ht.shown u hu
    refine ⟨o, hshows, fun hterminal j x hx hid => ?_, fun hlive => ?_⟩
    · rcases (rests_leave hslot).mp hx with ⟨-, hx⟩ | ⟨hj, hx⟩
      · exact hbears.gone hterminal ⟨x, hx, hid⟩
      · exact hj (hlocal hu hx (hid.trans hshows.id_eq.symm))
    · exact ⟨i, (rests_leave hslot).mpr (Or.inl ⟨rfl, hbears.rests hlive⟩)⟩
  · rw [rests_leave hslot, ht.untold x hx]
    constructor
    · rintro (⟨rfl, hheld⟩ | ⟨-, hrests⟩)
      · exact ⟨slot, hslot, hheld⟩
      · exact hrests
    · rintro ⟨slot', hslot', hheld⟩
      by_cases hj : j = i
      · subst hj
        rw [hslot] at hslot'
        cases hslot'
        exact Or.inl ⟨rfl, hheld⟩
      · exact Or.inr ⟨hj, slot', hslot', hheld⟩

theorem submit_told (hs : e.Sound) {intent : OrderIntent} {r : OrderResult}
    (ha : (e.submit world intent).answer = .ok (.ok r)) :
    Told ((e.submit world intent).events.filterMap Event.update?) e
      (e.submit world intent).engine := by
  obtain ⟨i, slot, d, hadm, hexec, hengine, hevents⟩ := submit_of_ok hs ha
  have hent := hadm.enters hs.toInOrder
  have htold := (Desk.executed_of_ok hent.sound hexec).told hent
    (passed_of_checkIntent hadm.checked).pos rfl
  have hfinal := Told.leave (hs.received hadm.free i) (slot_of_lookup? hadm.found)
    ⟨_, Table.get?_insert_self _ _ _, rfl⟩ htold.1
  rw [hengine, hevents]
  exact ⟨hfinal.unrejected, hfinal.shown, hfinal.untold⟩

theorem cancel_told (hs : e.Sound) (hl : e.Lively) {r : CancelResult}
    (ha : (e.cancel world id).answer = .ok r) :
    Told ((e.cancel world id).events.filterMap Event.update?) e (e.cancel world id).engine := by
  rcases cancel_of_ok hs ha with
    ⟨hengine, hevents, -⟩ | ⟨i, slot, d, hloc, hcancel, hengine, hevents⟩
  · rw [hengine, hevents]
    exact .silent fun _ _ => Iff.rfl
  · obtain ⟨hslot, hroute⟩ := route_of_locate? hloc
    rw [hengine, hevents]
    exact .leave hs hslot hroute (hcancel.told (hl i slot hslot) rfl)

theorem modify_told (hs : e.Sound) (hl : e.Lively) {request : ModifyRequest} {r : ModifyResult}
    (ha : (e.modify world id request).answer = .ok r) :
    Told ((e.modify world id request).events.filterMap Event.update?) e
      (e.modify world id request).engine := by
  rcases modify_of_ok hs ha with ⟨hengine, hevents, -⟩ | ⟨i, slot, d, hr, hmod, hengine, hevents⟩
  · rw [hengine, hevents]
    exact .silent fun _ _ => Iff.rfl
  · obtain ⟨hslot, hroute⟩ := route_of_locate? hr.found
    rw [hengine, hevents]
    exact .leave hs hslot hroute (hmod.told (hs.ready hl.live hslot) (hl i slot hslot)
      (passed_of_checkRequest hr.checked).1 rfl)

end Engine

end Bourse
