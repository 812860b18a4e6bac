import Bourse.Proofs.Engine.Settlement
import Bourse.Proofs.Run.Uncrossed

/-!
# Accepted orders are settled

An intent that is accepted changes one book. What its caller is told of the order is what
the engine shows of it afterwards (`order?`): an order that is said to rest is found under
its identity just as it was given back, and any other is not found. What is left of an
order finds nothing in the book that would suit it, and only a limit order that may wait
is left to rest. The desk's side of this is `Desk.Executed.settles`.
-/

namespace Bourse

namespace Engine

variable {e : Engine} {world : Surroundings} {intent : OrderIntent} {r : OrderResult}

/-- An intent has been accepted and its order settled in the book of its instrument. -/
structure Settles (before : Engine) (world : Surroundings) (intent : OrderIntent) (r : OrderResult)
    (after : Engine) (i : Nat) (slot : Slot) (book : Book) : Prop where
  found : before.lookup? intent.symbol = some (i, slot)
  slots_eq : ∀ j, after.slots[j]? = if j = i then some { slot with book } else before.slots[j]?
  settles : Desk.Settles (before.entering world intent) slot.book r book
  emptied : intent.orderType = .market → 0 < r.order.remaining →
    (book.ladder intent.side.opposite).levels = []
  shown : after.order? r.order.id = if r.isResting then some r.order else none

theorem submit_settles {bound off : Int} {count : Nat} {p : Decimal.Precision}
    (h : e.Steady p bound off count)
    (ha : (e.submit world intent).answer = .ok (.ok r)) (htif : intent.timeInForce ≠ .fillOrKill)
    {bound' off' : Int} {count' : Nat}
    (hafter : (e.submit world intent).engine.Steady p bound' off' count') :
    ∃ i slot book, e.Settles world intent r (e.submit world intent).engine i slot book := by
  obtain ⟨i, slot, d, hadm, hexec, hengine, -⟩ := submit_of_ok h.sound ha
  have hslot := slot_of_lookup? hadm.found
  have hent := hadm.enters h.sound.toInOrder
  have hpassed := passed_of_checkIntent hadm.checked
  have hsettles := (Desk.executed_of_ok hent.sound hexec).settles hent rfl hpassed.pos htif
    (h.book _ _ hslot).balanced.packed
  have hslots (j : Nat) : (e.submit world intent).engine.slots[j]? =
      if j = i then some { slot with book := d.book } else e.slots[j]? := by
    rw [hengine]
    exact slots_leave (e := e.received i (e.entering world intent).id) hslot d j
  have hfinal : (e.submit world intent).engine.slots[i]? = some { slot with book := d.book } := by
    rw [hslots, if_pos rfl]
  refine ⟨i, slot, d.book, hadm.found, hslots, hsettles, fun hmarket hleft => ?_, ?_⟩
  · exact hsettles.emptied (hafter.book _ _ hfinal).balanced.packed (hpassed.unpriced hmarket) hleft
  · cases hrests : r.isResting with
    | true =>
        have hlive : r.order.status.isTerminal = false := by
          rw [OrderStatus.isTerminal_eq_not_isLive, show r.order.status.isLive = true from hrests]
          rfl
        rw [if_pos rfl]
        exact (order?_iff hafter.sound).mpr
          ⟨⟨i, _, hfinal, hsettles.bears.rests hlive⟩, rfl⟩
    | false =>
        have hterminal : r.order.status.isTerminal = true := by
          rw [OrderStatus.isTerminal_eq_not_isLive, show r.order.status.isLive = false from hrests]
          rfl
        rw [if_neg Bool.false_ne_true, Option.eq_none_iff_forall_ne_some]
        intro x hx
        obtain ⟨⟨j, slot', hslot', hheld⟩, hid⟩ := (order?_iff hafter.sound).mp hx
        rw [hslots] at hslot'
        split at hslot'
        · cases hslot'
          exact hsettles.bears.gone hterminal ⟨x, hheld, hid⟩
        · refine h.sound.not_has hslot' hadm.free ⟨x, hheld, ?_⟩
          rw [hid, hsettles.same.id_eq]

end Engine

/-- Whatever has been accepted in fewer than ten thousand million calls, unless it had to trade as a
whole, `Settles`: the order is filled if nothing is left of it, rests if it may wait, and is
cancelled otherwise, and the book and the engine are what the answer says. -/
theorem accepted_orders_are_settled {past : List Turn} {e : Engine} (h : Run past e)
    (hlen : past.length < 10000000000) {world : Surroundings} {intent : OrderIntent}
    {r : OrderResult} (ha : (e.submit world intent).answer = .ok (.ok r))
    (htif : intent.timeInForce ≠ .fillOrKill) :
    ∃ i slot book, e.Settles world intent r (e.submit world intent).engine i slot book := by
  obtain ⟨-, hsteady⟩ := h.steady hlen
  exact Engine.submit_settles hsteady ha htif (hsteady.next hlen (.submit world intent)).2

/-- One is bid for at 1 and one is offered at 2. Buyers take it, take it and want another, take it
and want another at any price or at once, and a seller asks for 3. -/
def comers : List OrderIntent :=
  [.limit "X" .buy (.scaled 2 0) 1,
    .limit "X" .buy (.scaled 2 0) (.scaled 2 0),
    .market "X" .buy (.scaled 2 0),
    { OrderIntent.limit "X" .buy (.scaled 2 0) (.scaled 2 0) with
      timeInForce := .immediateOrCancel },
    .limit "X" .sell (.scaled 3 0) 1]

/-- What a comer is told of the order, if it is accepted. -/
def settled? (intent : OrderIntent) : Option OrderResult :=
  match (((Engine.empty .priceTime).follow [] quotes).2.submit (.handing 4)
    intent).answer with
  | .ok (.ok r) => some r
  | _ => none

theorem accepted_orders_are_settled_comers :
    (∀ intent ∈ comers, ∃ r i slot book, settled? intent = some r ∧
        ((Engine.empty .priceTime).follow [] quotes).2.Settles (.handing 4) intent r
          (((Engine.empty .priceTime).follow [] quotes).2.submit (.handing 4)
            intent).engine i slot book) ∧
      comers.map (fun intent => (settled? intent).map fun r => (r.status, r.trades.length)) =
        [some (.filled, 1), some (.partiallyFilled, 1), some (.cancelled, 1), some (.cancelled, 1),
          some (.new, 0)] := by
  have hwhole : ∀ intent ∈ comers, intent.timeInForce ≠ .fillOrKill := by decide
  have hall : ∀ intent ∈ comers, (settled? intent).isSome = true := by decide +kernel
  refine ⟨fun intent hintent => ?_, by decide +kernel⟩
  obtain ⟨r, hr⟩ := Option.isSome_iff_exists.mp (hall intent hintent)
  have ha : (((Engine.empty .priceTime).follow [] quotes).2.submit (.handing 4)
      intent).answer = .ok (.ok r) := by
    unfold settled? at hr
    split at hr
    · next ha =>
        cases hr
        exact ha
    · cases hr
  obtain ⟨i, slot, book, hsettles⟩ := accepted_orders_are_settled (History.start.follow quotes)
    (by decide +kernel) ha (hwhole intent hintent)
  exact ⟨r, i, slot, book, hr, hsettles⟩

end Bourse
