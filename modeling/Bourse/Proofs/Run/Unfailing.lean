import Bourse.Proofs.Decimal.Halving
import Bourse.Proofs.Run.Requeue

/-!
# Every call and every query is answered

In a run without too many calls about orders nothing is ever stopped by a fault, whatever
prices and quantities the calls bring. That is so of the calls because each of them finds
an engine that is `Steady`. Of the queries only `snapshot` could fail, where it subtracts
the best prices or halves their sum. But the best prices are those of orders that rest, so
they are positive, and bids are below asks; and a half there always is (`div_two_isOk`).
-/

namespace Bourse

/-- What can be asked of an engine that does not change it. -/
inductive Query where
  | order (id : OrderId)
  | bestPrices (symbol : String)
  | snapshot (symbol : String) (n : Nat)

/-- What a query is answered. -/
inductive Reading where
  | order (o : Option Order)
  | bestPrices (prices : Option (Option Price × Option Price))
  | snapshot (s : Option BookSnapshot)
deriving DecidableEq

/-- The answer to a `Query`. -/
def Engine.inquire (e : Engine) : Query → Except Fault Reading
  | .order id => .ok (.order (e.order? id))
  | .bestPrices symbol => .ok (.bestPrices (e.bestPrices? symbol))
  | .snapshot symbol n => (e.snapshot symbol n).map .snapshot

/-- Two prices always have a `middle`, or are too large for one. -/
theorem BookSnapshot.middle_isOk (bid ask : Price) : ∃ mid, middle bid ask = .ok mid := by
  unfold middle
  cases bid.add? ask with
  | none => exact ⟨none, rfl⟩
  | some sum =>
      obtain ⟨half, hhalf⟩ := Decimal.div_two_isOk sum
      have htwo : middle.two = .whole 2 (by decide) := rfl
      refine ⟨some half, ?_⟩
      dsimp only
      rw [htwo, hhalf]
      rfl

/-- The first price of `depth` is the best one. -/
theorem Ladder.bestPrice?_of_depth {l : Ladder} {n : Nat} {price : Price} {total : Quantity}
    {rest : List (Price × Quantity)} (h : l.depth n = (price, total) :: rest) :
    l.bestPrice? = some price := by
  unfold depth at h
  unfold bestPrice? best?
  cases hl : l.levels with
  | nil => simp [hl] at h
  | cons level post =>
      cases n with
      | zero => simp at h
      | succ n =>
          simp only [hl, List.take_succ_cons, List.map_cons, List.cons.injEq, Prod.mk.injEq] at h
          simp [h.1.1]

/-- The price of an order that `Suits` its instrument is positive. -/
theorem Order.Suits.price_pos {config : InstrumentConfig} {o : Order} {price : Price}
    (h : o.Suits config) (hprice : o.price = some price) : 0 < price :=
  (Engine.allowed_of_checkTerms (hprice ▸ h.priced)).1

namespace Book

variable {p : Decimal.Precision} {bound off : Int} {count : Nat} {config : InstrumentConfig}
  {b : Book}

theorem Steady.snapshot_isOk (h : b.Steady p bound off count) (hsuited : b.Suited config)
    (n : Nat) : ∃ s, b.snapshot n = .ok s := by
  unfold snapshot BookSnapshot.ofDepth
  cases hbids : b.bids.depth n with
  | nil => exact ⟨_, rfl⟩
  | cons bid bids =>
      cases hasks : b.asks.depth n with
      | nil => exact ⟨_, rfl⟩
      | cons ask asks =>
          have hbid : b.bestBid? = some bid.1 := Ladder.bestPrice?_of_depth hbids
          have hask : b.bestAsk? = some ask.1 := Ladder.bestPrice?_of_depth hasks
          have hlt : bid.1 < ask.1 := h.apart.best_lt h.sound h.balanced.packed hbid hask
          obtain ⟨o, price, ho, -, hprice, hv⟩ :=
            h.sound.bestPrice?_real h.balanced.packed .buy hbid
          have hpos : (0 : Int) < price.atoms := (hsuited o ho).price_pos hprice
          have hv : price.atoms = bid.1.atoms := hv
          obtain ⟨spread, hspread⟩ :=
            Decimal.sub_isOk (a := ask.1) (b := bid.1) (by omega) (Int.le_of_lt hlt)
          obtain ⟨mid, hmid⟩ := BookSnapshot.middle_isOk bid.1 ask.1
          dsimp only
          rw [hspread, hmid]
          exact ⟨_, rfl⟩

end Book

theorem Engine.Steady.inquire_isOk {p : Decimal.Precision} {bound off : Int} {count : Nat}
    {e : Engine} (h : e.Steady p bound off count) (hsuited : e.Suited) (q : Query) :
    ∃ r, e.inquire q = .ok r := by
  cases q with
  | order id => exact ⟨_, rfl⟩
  | bestPrices symbol => exact ⟨_, rfl⟩
  | snapshot symbol n =>
      unfold inquire snapshot
      dsimp only
      cases hl : e.lookup? symbol with
      | none => exact ⟨_, rfl⟩
      | some place =>
          have hslot := slot_of_lookup? hl
          obtain ⟨s, hs⟩ := (h.book _ _ hslot).snapshot_isOk (hsuited place.1 place.2 hslot) n
          dsimp only
          rw [hs]
          exact ⟨_, rfl⟩

/-- In a run of fewer than ten thousand million calls about orders no call is stopped by a fault,
and at no time is any query. -/
theorem calls_and_queries_answered {past : List Turn} {e : Engine} (h : Run past e)
    (hfew : orderCalls past < 10000000000) :
    (∀ t ∈ past, t.answer.fault? = none ∧ ∀ q, ∃ r, t.after.inquire q = .ok r) ∧
      ∀ q, ∃ r, e.inquire q = .ok r := by
  obtain ⟨hok, hsteady⟩ := h.steady_orderCalls hfew
  refine ⟨fun t ht => ⟨hok t ht, ?_⟩, hsteady.inquire_isOk (h.suited hok)⟩
  obtain ⟨earlier, hrun, hsuffix⟩ := h.upTo ht
  have hfewer := Nat.lt_of_le_of_lt (orderCalls_suffix hsuffix) hfew
  obtain ⟨hok', hsteady'⟩ := hrun.steady_orderCalls hfewer
  exact hsteady'.inquire_isOk (hrun.suited hok')

/-- At the greatest price as much is offered as may be, the least there is is bid for at the least
price and again at any price, and what is offered for less than nothing is refused. -/
def extremes : List Call :=
  [.addInstrument (.plain "X"),
    .submit (.handing 1) (.limit "X" .sell .greatest maxOrderQuantity),
    .submit (.handing 2) (.limit "X" .buy .atom .atom),
    .submit (.handing 3) (.market "X" .buy .atom),
    .submit (.handing 4) (.limit "X" .sell .least .greatest)]

theorem calls_and_queries_answered_extremes :
    ((∀ t ∈ ((Engine.empty .priceTime).follow [] extremes).1, t.answer.fault? = none) ∧
      ∀ q, ∃ r, ((Engine.empty .priceTime).follow [] extremes).2.inquire q = .ok r) ∧
      (((Engine.empty .priceTime).follow [] extremes).2.snapshot "X" 1).toOption.map
          (fun s => s.map fun s => (s.spread, s.mid)) =
        some (some (some .greatest,
          some (.whole 39614081257132168796771975168 (by decide)))) := by
  have h := calls_and_queries_answered (History.start.follow extremes) (by decide +kernel)
  exact ⟨⟨fun t ht => (h.1 t ht).1, h.2⟩, by decide +kernel⟩

end Bourse
