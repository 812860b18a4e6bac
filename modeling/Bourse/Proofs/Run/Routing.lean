import Bourse.Proofs.Book.Queue
import Bourse.Proofs.Engine.Routed
import Bourse.Proofs.Run.Uncrossed
import Bourse.Proofs.Run.Priority

/-!
# Routes and books agree

The routes of an engine and the indexes of its books are kept apart and changed at
different moments. After each call they say the same (`Routing`): an identity has a route
if and only if it is one of `restingIds`, and then the route names the slot it rests in.
So whatever consults the routes decides by what rests, be it whether an identity is free,
or which order is shown, cancelled or modified.
-/

namespace Bourse

/-! ## The identities that rest -/

/-- The identities of the orders in all books. -/
def Engine.restingIds (e : Engine) : List OrderId := e.slots.flatMap fun slot => slot.book.ids

namespace Engine

variable {e : Engine} {id : OrderId}

theorem Sound.mem_restingIds (h : e.Sound) :
    id ∈ e.restingIds ↔ ∃ i o, e.Rests i o ∧ o.id = id := by
  unfold restingIds
  rw [List.mem_flatMap]
  constructor
  · rintro ⟨slot, hslot, hid⟩
    obtain ⟨i, hi⟩ := List.getElem?_of_mem hslot
    obtain ⟨o, ho, rfl⟩ := (h.book hi).mem_ids.mp hid
    exact ⟨i, o, ⟨slot, hi, ho⟩, rfl⟩
  · rintro ⟨i, o, ⟨slot, hi, ho⟩, rfl⟩
    exact ⟨slot, List.mem_of_getElem? hi, (h.book hi).mem_ids.mpr ⟨o, ho, rfl⟩⟩

/-- An identity rests in one book at most, and there once at most. -/
theorem Sound.restingIds_nodup (h : e.Sound) : e.restingIds.Nodup := by
  refine List.pairwise_flatMap.mpr ⟨fun slot hslot => ?_, ?_⟩
  · obtain ⟨i, hi⟩ := List.getElem?_of_mem hslot
    exact (h.book hi).ids_nodup
  · refine List.pairwise_iff_getElem.mpr fun i j hi hj hlt x hx y hy hxy => ?_
    have hi' := List.getElem?_eq_getElem hi
    have hj' := List.getElem?_eq_getElem hj
    obtain ⟨o, ho, rfl⟩ := (h.book hi').mem_ids.mp hx
    obtain ⟨o', ho', rfl⟩ := (h.book hj').mem_ids.mp hy
    have := h.slot_unique ⟨_, hi', ho⟩ ⟨_, hj', ho'⟩ hxy
    omega

/-- `locate?` finds an identity just if it rests. -/
theorem Tidy.located (ht : e.Tidy) (h : e.Sound) :
    (e.locate? id = none ∧ id ∉ e.restingIds) ∨
      ∃ i slot, e.locate? id = some (i, slot) ∧ slot.book.Has id ∧ id ∈ e.restingIds := by
  cases hl : e.locate? id with
  | none =>
      refine Or.inl ⟨rfl, fun hid => ?_⟩
      obtain ⟨i, o, ho, rfl⟩ := h.mem_restingIds.mp hid
      obtain ⟨slot, hsome, -⟩ := locate?_of_rests h ho
      rw [hl] at hsome
      cases hsome
  | some place =>
      obtain ⟨o, ho, hid⟩ := ht.has hl
      refine Or.inr ⟨place.1, place.2, rfl, ⟨o, ho, hid⟩, h.mem_restingIds.mpr ?_⟩
      exact ⟨place.1, o, ⟨place.2, (route_of_locate? hl).1, ho⟩, hid⟩

/-! ## What is decided by the routes -/

/-- Routes and books agree, and the calls that consult the routes are answered by what rests. -/
structure Routing (e : Engine) : Prop where
  routed_iff : ∀ id i,
    (∃ r, e.routes.get? id = some r ∧ r.slot = i) ↔ ∃ o, e.Rests i o ∧ o.id = id
  contains_iff : ∀ id, e.routes.contains id = true ↔ id ∈ e.restingIds
  nodup : e.restingIds.Nodup
  refused_iff : ∀ world intent why, e.Valid intent →
    ((e.submit world intent).answer = .ok (.error why) ↔
      (e.entering world intent).id ∈ e.restingIds ∧
        why = ⟨(e.entering world intent).id, .duplicateOrderId (e.entering world intent).id⟩)
  shown_iff : ∀ id, (e.order? id).isSome = true ↔ id ∈ e.restingIds
  cancelled_iff : ∀ world id r, (e.cancel world id).answer = .ok r →
    (r.isCancelled = true ↔ id ∈ e.restingIds)
  modified_iff : ∀ world id request r,
    (∀ i slot, e.locate? id = some (i, slot) → checkRequest slot.config request = .ok ()) →
    (e.modify world id request).answer = .ok r → (r.isModified = true ↔ id ∈ e.restingIds)

theorem Tidy.routed_iff (ht : e.Tidy) (h : e.Sound) (id : OrderId) (i : Nat) :
    (∃ r, e.routes.get? id = some r ∧ r.slot = i) ↔ ∃ o, e.Rests i o ∧ o.id = id := by
  constructor
  · rintro ⟨r, hr, rfl⟩
    exact ht id r hr
  · rintro ⟨o, ho, rfl⟩
    exact h.routed ho

theorem Tidy.contains_iff (ht : e.Tidy) (h : e.Sound) (id : OrderId) :
    e.routes.contains id = true ↔ id ∈ e.restingIds := by
  rw [h.mem_restingIds]
  unfold Table.contains
  rw [Option.isSome_iff_exists]
  constructor
  · rintro ⟨r, hr⟩
    obtain ⟨o, ho, hid⟩ := ht id r hr
    exact ⟨r.slot, o, ho, hid⟩
  · rintro ⟨i, o, ho, rfl⟩
    obtain ⟨r, hr, -⟩ := h.routed ho
    exact ⟨r, hr⟩

/-- A `Valid` intent is refused just if its identity rests. -/
theorem Tidy.refused_iff (ht : e.Tidy) (h : e.Sound) {world : Surroundings} {intent : OrderIntent}
    (hvalid : e.Valid intent) (why : Rejection) :
    (e.submit world intent).answer = .ok (.error why) ↔
      (e.entering world intent).id ∈ e.restingIds ∧
        why = ⟨(e.entering world intent).id, .duplicateOrderId (e.entering world intent).id⟩ := by
  rw [← ht.contains_iff h]
  constructor
  · intro ha
    have hlive : e.routes.get? (e.entering world intent).id ≠ none := by
      obtain ⟨i, slot, hfound, hchecked⟩ := hvalid
      exact fun hfree => not_admits_of_rejected ha i slot ⟨hfound, hchecked, hfree⟩
    refine ⟨Option.isSome_iff_ne_none.mpr hlive, ?_⟩
    rw [(submit_duplicate world hvalid hlive).2.2] at ha
    cases ha
    rfl
  · rintro ⟨hlive, rfl⟩
    exact (submit_duplicate world hvalid (Option.isSome_iff_ne_none.mp hlive)).2.2

theorem shown_iff (h : e.Sound) (id : OrderId) :
    (e.order? id).isSome = true ↔ id ∈ e.restingIds := by
  rw [h.mem_restingIds, Option.isSome_iff_exists]
  constructor
  · rintro ⟨o, ho⟩
    obtain ⟨⟨i, hrests⟩, hid⟩ := (order?_iff h).mp ho
    exact ⟨i, o, hrests, hid⟩
  · rintro ⟨i, o, ho, hid⟩
    exact ⟨o, (order?_iff h).mpr ⟨⟨i, ho⟩, hid⟩⟩

/-- A `cancel` that comes to its end cancels what rests. -/
theorem Tidy.cancelled_iff (ht : e.Tidy) (h : e.Sound) (hl : e.Lively) {world : Surroundings}
    {r : CancelResult} (ha : (e.cancel world id).answer = .ok r) :
    r.isCancelled = true ↔ id ∈ e.restingIds := by
  rcases ht.located h with ⟨hnone, hnot⟩ | ⟨i, slot, hloc, hhas, hid⟩
  · rw [cancel_not_found hnone] at ha
    cases ha
    exact iff_of_false Bool.false_ne_true hnot
  · refine iff_of_true ?_ hid
    have hslot := (route_of_locate? hloc).1
    obtain ⟨reply, hreply, -, hanswer, -⟩ := cancel_run world hloc
    rw [hanswer, hreply] at ha
    obtain ⟨d, hrun, -⟩ := exclusive_of_ok ha
    cases Desk.cancelled_of_ok (h.book hslot) hrun with
    | absent hnot => exact absurd hhas hnot
    | dead ho _ hdead _ =>
        rw [(hl i slot hslot _ ho).1] at hdead
        cases hdead
    | found _ _ _ _ _ _ _ _ => rfl

/-- A valid `modify` that comes to its end modifies what rests. -/
theorem Tidy.modified_iff (ht : e.Tidy) (h : e.Sound) {world : Surroundings}
    {request : ModifyRequest} {r : ModifyResult}
    (hvalid : ∀ i slot, e.locate? id = some (i, slot) → checkRequest slot.config request = .ok ())
    (ha : (e.modify world id request).answer = .ok r) :
    r.isModified = true ↔ id ∈ e.restingIds := by
  rcases ht.located h with ⟨hnone, hnot⟩ | ⟨i, slot, hloc, hhas, hid⟩
  · refine iff_of_false ?_ hnot
    have hunfound (i : Nat) (slot : Slot) : ¬ e.Revises id request i slot := by
      intro hr
      have hfound := hr.found
      rw [hnone] at hfound
      cases hfound
    rcases (modify_refused world h.toInOrder hunfound).2.2 with hanswer | ⟨reason, hanswer⟩ <;>
      rw [ha] at hanswer <;> cases hanswer <;> exact Bool.false_ne_true
  · refine iff_of_true ?_ hid
    rw [modify_of_revises ⟨hloc, hvalid i slot hloc⟩, h.rule_eq] at ha
    obtain ⟨d, hrun, -⟩ := guarded_of_ok ha
    cases Desk.modified_of_ok (h.book (route_of_locate? hloc).1) hrun with
    | absent hnot => exact absurd hhas hnot
    | same _ _ _ _ => rfl
    | lessened _ _ _ _ _ _ _ _ _ _ => rfl
    | requeued _ _ _ _ _ _ _ => rfl

theorem Tidy.routing (ht : e.Tidy) (h : e.Sound) (hl : e.Lively) : e.Routing where
  routed_iff := ht.routed_iff h
  contains_iff := ht.contains_iff h
  nodup := h.restingIds_nodup
  refused_iff _ _ why hvalid := ht.refused_iff h hvalid why
  shown_iff := shown_iff h
  cancelled_iff _ _ _ ha := ht.cancelled_iff h hl ha
  modified_iff _ _ _ _ hvalid ha := ht.modified_iff h hvalid ha

/-- A call that comes to its end leaves the engine `Tidy`. -/
theorem perform_tidy (ht : e.Tidy) (h : e.Sound) (hl : e.Lively) (call : Call)
    (hok : (e.perform call).answer.fault? = none) : (e.perform call).after.Tidy := by
  refine perform_of_answered (P := fun t => t.after.Tidy) ?_ ?_ ?_ ?_ hok
  · exact fun config => ht.addInstrument config
  · exact fun _ _ _ ha => ht.submit h ha
  · exact fun _ _ _ ha => ht.cancel h hl ha
  · exact fun _ _ _ _ ha => ht.modify h hl ha

end Engine

theorem History.tidy {past : List Turn} {e : Engine} (h : Run past e) (hok : Faultless past) :
    e.Tidy :=
  History.invariant (P := fun _ => Engine.Tidy) (Engine.tidy_empty _)
    (fun _ _ call ht hs hl => Engine.perform_tidy ht hs hl call) h hok

/-- After each call of a run without faults routes and books agree. If the run is not too long the
next call meets no fault either, so that it is answered. -/
theorem routing_exact {past : List Turn} {e : Engine} (h : Run past e) (hok : Faultless past) :
    ∀ t ∈ past, t.after.Routing ∧
      (past.length < 10000000000 → ∀ call, (t.after.perform call).answer.fault? = none) := by
  intro t ht
  obtain ⟨earlier, hrun, hsuffix⟩ := h.upTo ht
  have hok' : Faultless (t :: earlier) := fun x hx => hok x (hsuffix.subset hx)
  obtain ⟨hs, hl, -⟩ := hrun.orderly hok'
  refine ⟨(hrun.tidy hok').routing hs hl, fun hlen call => ?_⟩
  have hshort := Nat.lt_of_le_of_lt hsuffix.length_le hlen
  exact ((hrun.steady hshort).2.next hshort call).1

/-- In two instruments one is offered under an identity of its own. The first offer is bought,
another buyer is killed for want of a second, and then the identity of the first is taken again. -/
def reusing : List Call :=
  [.addInstrument (.plain "X"), .addInstrument (.plain "Y"),
    .submit (.handing 1) (.limit "X" .sell 1 1),
    .submit (.handing 2) (.limit "Y" .sell 1 1),
    .submit (.handing 3) (.limit "X" .buy 1 1),
    .submit (.handing 4)
      { OrderIntent.limit "X" .buy 1 1 with timeInForce := .fillOrKill },
    .submit (.handing 1) (.limit "Y" .buy 1 (.scaled 2 0))]

theorem routing_exact_reusing :
    (∀ t ∈ ((Engine.empty .priceTime).follow [] reusing).1, t.after.Routing) ∧
      ((Engine.empty .priceTime).follow [] reusing).1.map (fun t => t.after.restingIds) =
        [[⟨⟨1, by decide⟩⟩], [⟨⟨2, by decide⟩⟩], [⟨⟨2, by decide⟩⟩],
          [⟨⟨1, by decide⟩⟩, ⟨⟨2, by decide⟩⟩], [⟨⟨1, by decide⟩⟩], [], []] :=
  ⟨fun t ht =>
    (routing_exact (History.start.follow reusing) (by decide +kernel) t ht).1, by decide +kernel⟩

end Bourse
