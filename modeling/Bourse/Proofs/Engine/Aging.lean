import Bourse.Proofs.Engine.Told

/-!
# What an update says of the course of an order

An order grows older with each update. A filled order has nothing left and any other has
something (`OrderStatus.Leaves`). Who trades is no longer new, and nothing makes an order
new again: it keeps its status when it is lessened and when it is queued anew. So an
update `Continues` what was known of an order that rested before, unless it is the update
of the order that has just come in.
-/

namespace Bourse

/-- How much may be left of an order with a status: nothing if it is filled, else something. -/
def OrderStatus.Leaves (s : OrderStatus) (left : Quantity) : Prop :=
  if s = .filled then left.SameValue 0 else 0 < left

theorem OrderStatus.Leaves.of_pos {s : OrderStatus} {left : Quantity} (hs : s ≠ .filled)
    (hpos : 0 < left) : s.Leaves left := by
  unfold Leaves
  rw [if_neg hs]
  exact hpos

/-- The update is about an order of a kind, and does not make it new again. -/
def OrderUpdate.Continues (u : OrderUpdate) (held : Order → Prop) : Prop :=
  ∃ x, held x ∧ x.id = u.orderId ∧ (u.status = .new → x.status = .new)

theorem OrderUpdate.Continues.mono {u : OrderUpdate} {held held' : Order → Prop}
    (h : u.Continues held) (himp : ∀ x, held x → held' x) : u.Continues held' := by
  obtain ⟨x, hx, hid, hnew⟩ := h
  exact ⟨x, himp x hx, hid, hnew⟩

theorem OrderUpdate.Shows.leaves {u : OrderUpdate} {o : Order} (h : u.Shows o)
    (ho : o.status.Leaves o.remaining) : u.status.Leaves u.remaining := by
  rw [h.status_eq, h.remaining_eq]
  exact ho

namespace Order

variable {o o' : Order} {q : Quantity}

theorem fill_leaves (h : o.fill q = .ok o') : o'.status.Leaves o'.remaining := by
  have hnonneg : (0 : Int) ≤ o'.remaining.atoms := fill_remaining_nonneg h
  rw [fill_status h]
  by_cases hz : o'.remaining.SameValue 0
  · rw [if_pos hz]
    exact hz
  · have hne : o'.remaining.atoms ≠ 0 := hz
    rw [if_neg hz]
    refine .of_pos (by decide) ?_
    show (0 : Int) < o'.remaining.atoms
    omega

theorem ne_filled_of_isLive (h : o.status.isLive = true) : o.status ≠ .filled := by
  intro hf
  rw [hf] at h
  cases h

/-- Fills make no order `new`. -/
theorem Filled.new_of_new (h : Filled o o') (hnew : o'.status = .new) : o.status = .new := by
  cases h with
  | none => exact hnew
  | fill _ hf =>
      rw [fill_status hf] at hnew
      split at hnew <;> cases hnew

end Order

/-- A maker in a matching is an order that rested, and it is no longer `new`. -/
theorem Encounter.Trades.maker_ages {e e' : Encounter} {moments : List (Encounter × Fill)}
    (h : Trades e moments e') (hs : e.book.Sound) {m : Encounter × Fill} (hm : m ∈ moments)
    {u : OrderUpdate} (hu : u.Shows m.2.maker) :
    u.status.Leaves u.remaining ∧ u.Continues e.book.Holds := by
  obtain ⟨hw, -, next, hstep⟩ := h.moment hs hm
  obtain ⟨_, _, _, _, _, hdeal⟩ := hstep.deal hw.sound
  obtain ⟨x, hx, hfilled⟩ := h.makers hs hm
  refine ⟨hu.leaves (Order.fill_leaves hdeal.maker_fill), x, hx, ?_, fun hnew => ?_⟩
  · rw [hu.id_eq]
    exact hfilled.same.id_eq.symm
  · rw [hu.status_eq] at hnew
    exact hfilled.new_of_new hnew

namespace Desk

variable {world : Surroundings} {o : Order} {d d' : Desk} {r : OrderResult} {id : OrderId}

theorem Settled.leaves {e : Encounter} {o' : Order} {b : Book} (h : Settled e o' b)
    (hfilled : o.Filled e.incoming) (hlive : o.status.isLive = true) (hpos : 0 < o.remaining) :
    o'.status.Leaves o'.remaining := by
  cases h with
  | done hle =>
      have hnonneg := hfilled.remaining_nonneg (Int.le_of_lt hpos)
      rw [hfilled.status_of_used_up hpos hle]
      exact Int.le_antisymm hle hnonneg
  | dropped hleft _ _ => exact .of_pos nofun hleft
  | rests hleft _ _ =>
      exact .of_pos (Order.ne_filled_of_isLive (hfilled.isLive hlive hleft)) hleft

theorem Settled.new_of_new {e : Encounter} {o' : Order} {b : Book} (h : Settled e o' b)
    (hnew : o'.status = .new) : e.incoming.status = .new := by
  cases h with
  | done _ => exact hnew
  | dropped _ _ _ => cases hnew
  | rests _ _ _ => exact hnew

/-- An execution tells of makers, which rested before, and of the order it answers with. -/
theorem Executed.ages (h : Executed world o d r d') (hent : Enters o d) (hpos : 0 < o.remaining)
    (he : d.emitted = []) {u : OrderUpdate} (hu : u ∈ d'.updates) :
    u.status.Leaves u.remaining ∧ (u.Shows r.order ∨ u.Continues d.book.Holds) := by
  have hs := hent.sound
  unfold updates at hu
  cases h with
  | killed _ _ _ hupdate hemitted =>
      rw [hemitted, he] at hu
      have hshows := OrderUpdate.shows_of_ofOrder hupdate
      rw [List.mem_singleton.mp hu]
      exact ⟨hshows.leaves (.of_pos nofun hpos), Or.inl hshows⟩
  | matched _ hm _ hstory hset hupdate hemitted =>
      rw [hemitted, he, List.nil_append, List.filterMap_append] at hu
      rcases List.mem_append.mp hu with hu | hu
      · obtain ⟨fill, hfill, hshows⟩ := hstory.updates.1 u hu
        obtain ⟨m, hm', rfl⟩ := List.mem_map.mp hfill
        obtain ⟨hleaves, hcontinues⟩ := hm.maker_ages hs hm' hshows
        exact ⟨hleaves, Or.inr hcontinues⟩
      · have hshows := OrderUpdate.shows_of_ofOrder hupdate
        rw [List.mem_singleton.mp hu]
        exact ⟨hshows.leaves (hset.leaves (hm.filled hs) hent.live hpos), Or.inl hshows⟩

theorem Executed.new_of_new (h : Executed world o d r d') (hs : d.book.Sound)
    (hnew : r.order.status = .new) : o.status = .new := by
  cases h with
  | killed _ _ _ _ _ => cases hnew
  | matched _ hm _ _ hset _ _ => exact (hm.filled hs).new_of_new (hset.new_of_new hnew)

theorem Cancelled.ages {r : CancelResult} (h : Cancelled world id d r d') (hl : d.book.Lively)
    (he : d.emitted = []) {u : OrderUpdate} (hu : u ∈ d'.updates) :
    u.status.Leaves u.remaining ∧ u.Continues d.book.Holds := by
  unfold updates at hu
  cases h with
  | absent _ =>
      rw [he] at hu
      cases hu
  | dead _ _ _ _ =>
      rw [he] at hu
      cases hu
  | @found o _ _ _ ho _ _ _ hupdate hemitted =>
      rw [hemitted, he] at hu
      have hshows := OrderUpdate.shows_of_ofOrder hupdate
      rw [List.mem_singleton.mp hu]
      refine ⟨hshows.leaves (.of_pos nofun (hl o ho).2), o, ho, hshows.id_eq.symm, fun hnew => ?_⟩
      rw [hshows.status_eq] at hnew
      cases hnew

theorem Modified.ages {request : ModifyRequest} {r : ModifyResult}
    (h : Modified world id request d r d') (hready : d.Ready) (hl : d.book.Lively)
    (hq : 0 < request.quantity) (he : d.emitted = []) {u : OrderUpdate} (hu : u ∈ d'.updates) :
    u.status.Leaves u.remaining ∧ u.Continues d.book.Holds := by
  cases h with
  | absent _ =>
      unfold updates at hu
      rw [he] at hu
      cases hu
  | same _ _ _ _ =>
      unfold updates at hu
      rw [he] at hu
      cases hu
  | @lessened o o' _ _ _ ho _ _ _ _ hset _ hupdate hemitted _ =>
      unfold updates at hu
      rw [hemitted, he] at hu
      obtain ⟨_, _, -, -, rfl⟩ := Order.setRemaining_eq_ok hset
      have hshows := OrderUpdate.shows_of_ofOrder hupdate
      rw [List.mem_singleton.mp hu]
      refine ⟨hshows.leaves (.of_pos (Order.ne_filled_of_isLive (hl o ho).1) hq), o, ho,
        hshows.id_eq.symm, fun hnew => ?_⟩
      rw [hshows.status_eq] at hnew
      exact hnew
  | @requeued o o' _ r _ ho _ _ _ hdep hset hexec =>
      have hent := hready.enters ho (Int.le_of_lt hq) hdep hset
      obtain ⟨_, _, -, -, rfl⟩ := Order.setRemaining_eq_ok hset
      have hexecuted := executed_of_ok hent.sound hexec
      obtain ⟨hleaves, hown | hcontinues⟩ := hexecuted.ages hent hq he hu
      · refine ⟨hleaves, o, ho, ?_, fun hnew => ?_⟩
        · rw [hown.id_eq]
          exact (hexecuted.same hent.sound).id_eq.symm
        · rw [hown.status_eq] at hnew
          exact hexecuted.new_of_new hent.sound hnew
      · exact ⟨hleaves, hcontinues.mono fun x hx => ((hdep.holds_iff x).mp hx).1⟩

end Desk

namespace Engine

variable {e : Engine} {world : Surroundings} {id : OrderId}

theorem submit_ages (hs : e.Sound) {intent : OrderIntent} {r : OrderResult}
    (ha : (e.submit world intent).answer = .ok (.ok r)) {u : OrderUpdate}
    (hu : u ∈ (e.submit world intent).events.filterMap Event.update?) :
    u.status.Leaves u.remaining ∧ (u.Shows r.order ∨ u.Continues e.Resting) := by
  obtain ⟨i, slot, d, hadm, hexec, -, hevents⟩ := submit_of_ok hs ha
  have hent := hadm.enters hs.toInOrder
  rw [hevents] at hu
  obtain ⟨hleaves, hown⟩ := (Desk.executed_of_ok hent.sound hexec).ages hent
    (passed_of_checkIntent hadm.checked).pos rfl hu
  refine ⟨hleaves, hown.imp_right fun hcontinues => hcontinues.mono fun x hx => ?_⟩
  exact ⟨i, slot, slot_of_lookup? hadm.found, hx⟩

theorem cancel_ages (hs : e.Sound) (hl : e.Lively) {r : CancelResult}
    (ha : (e.cancel world id).answer = .ok r) {u : OrderUpdate}
    (hu : u ∈ (e.cancel world id).events.filterMap Event.update?) :
    u.status.Leaves u.remaining ∧ u.Continues e.Resting := by
  rcases cancel_of_ok hs ha with ⟨-, hevents, -⟩ | ⟨i, slot, d, hloc, hcancel, -, hevents⟩
  · rw [hevents] at hu
    cases hu
  · have hslot := (route_of_locate? hloc).1
    rw [hevents] at hu
    obtain ⟨hleaves, hcontinues⟩ := hcancel.ages (hl i slot hslot) rfl hu
    exact ⟨hleaves, hcontinues.mono fun x hx => ⟨i, slot, hslot, hx⟩⟩

theorem modify_ages (hs : e.Sound) (hl : e.Lively) {request : ModifyRequest} {r : ModifyResult}
    (ha : (e.modify world id request).answer = .ok r) {u : OrderUpdate}
    (hu : u ∈ (e.modify world id request).events.filterMap Event.update?) :
    u.status.Leaves u.remaining ∧ u.Continues e.Resting := by
  rcases modify_of_ok hs ha with ⟨-, hevents, -⟩ | ⟨i, slot, d, hr, hmod, -, hevents⟩
  · rw [hevents] at hu
    cases hu
  · have hslot := (route_of_locate? hr.found).1
    rw [hevents] at hu
    obtain ⟨hleaves, hcontinues⟩ := hmod.ages (hs.ready hl.live hslot) (hl i slot hslot)
      (passed_of_checkRequest hr.checked).1 rfl hu
    exact ⟨hleaves, hcontinues.mono fun x hx => ⟨i, slot, hslot, hx⟩⟩

end Engine

end Bourse
