import Bourse.Proofs.Book.Depth
import Bourse.Proofs.Run.Conservation
import Bourse.Proofs.Run.Unfailing

/-!
# Snapshots are faithful

As long as a run stays in `ExactRange`, where sums are exact, a snapshot shows what rests:
the leading prices of both sides, and at each of them all that is left of the orders
there. Each level keeps its sum through everything that happens to its orders, and no sum
has ever been rounded; a call that is stopped by a fault leaves the books as balanced as
it found them. So the book is `Steady` without any slack, and that is enough
(`Steady.faithful`).
-/

namespace Bourse

open Decimal

namespace BookSnapshot

/-- A snapshot shows the first `n` of the entries of both sides, how far their best prices are
apart, and, if that is all of a side, what is left of all its orders. -/
structure Faithful (s : BookSnapshot) (b : Book) (n : Nat) (bids asks : List (Price × Quantity)) :
    Prop where
  bids_eq : s.bids = bids.take n
  asks_eq : s.asks = asks.take n
  spread_eq : ∀ bid ask, s.bestBid? = some bid → s.bestAsk? = some ask →
    ∃ spread, s.spread = some spread ∧ ask.sub bid = .ok spread ∧ 0 < spread
  spread_none : s.bestBid? = none ∨ s.bestAsk? = none → s.spread = none
  totalBid_eq : bids.length ≤ n → s.totalBid.atoms = left b.bids.orders
  totalAsk_eq : asks.length ≤ n → s.totalAsk.atoms = left b.asks.orders

variable {symbol : String} {bids asks : List (Price × Quantity)} {s : BookSnapshot}

/-- A snapshot made by `ofDepth` has the entries it is made of, and has subtracted the first prices
if there are two. -/
theorem of_ofDepth (h : ofDepth symbol bids asks = .ok s) :
    s.bids = bids ∧ s.asks = asks ∧
      (∀ bid ask, s.bestBid? = some bid → s.bestAsk? = some ask →
        ∃ spread, s.spread = some spread ∧ ask.sub bid = .ok spread) ∧
      (s.bestBid? = none ∨ s.bestAsk? = none → s.spread = none) := by
  cases bids with
  | nil =>
      cases h
      exact ⟨rfl, rfl, fun _ _ hbid => (by cases hbid), fun _ => rfl⟩
  | cons bid bids =>
      cases asks with
      | nil =>
          cases h
          exact ⟨rfl, rfl, fun _ _ _ hask => (by cases hask), fun _ => rfl⟩
      | cons ask asks =>
          unfold ofDepth at h
          dsimp only at h
          cases hspread : ask.1.sub bid.1 with
          | error why => rw [hspread] at h; cases h
          | ok spread =>
              rw [hspread] at h
              cases hmid : middle bid.1 ask.1 with
              | error f => rw [hmid] at h; cases h
              | ok mid =>
                  rw [hmid] at h
                  cases h
                  refine ⟨rfl, rfl, fun _ _ hbid hask => ?_, fun hnone => ?_⟩
                  · cases hbid
                    cases hask
                    exact ⟨spread, rfl, hspread⟩
                  · rcases hnone with hnone | hnone <;> cases hnone

end BookSnapshot

namespace Book

variable {p : Precision} {bound : Int} {count n : Nat} {config : InstrumentConfig} {b : Book}
  {s : BookSnapshot}

/-- The snapshots of a book whose sums are exact are `Faithful`. -/
theorem Steady.faithful (h : b.Steady p bound 0 count) (hp : p.slack = 0) (hcap : bound ≤ p.cap)
    (hs : b.snapshot n = .ok s) : s.Faithful b n b.bids.entries b.asks.entries := by
  obtain ⟨hbids, hasks, hspread, hnone⟩ := BookSnapshot.of_ofDepth hs
  rw [Ladder.depth_eq] at hbids hasks
  refine ⟨hbids, hasks, fun bid ask hbid hask => ?_, hnone, fun hlen => ?_, fun hlen => ?_⟩
  · obtain ⟨spread, heq, hsub⟩ := hspread bid ask hbid hask
    unfold BookSnapshot.bestBid? at hbid
    unfold BookSnapshot.bestAsk? at hask
    rw [hbids] at hbid
    rw [hasks] at hask
    exact ⟨spread, heq, hsub, sub_pos hsub (h.apart.best_lt h.sound h.balanced.packed
      (Ladder.bestPrice?_of_take hbid) (Ladder.bestPrice?_of_take hask))⟩
  · rw [BookSnapshot.totalBid, hbids, List.take_of_length_le hlen]
    exact h.balanced.totalOf_eq h.sound hp hcap .buy
  · rw [BookSnapshot.totalAsk, hasks, List.take_of_length_le hlen]
    exact h.balanced.totalOf_eq h.sound hp hcap .sell

end Book

/-- What is left by a call in range suits the instruments, even if the call was stopped by a
fault. -/
theorem History.suited_of_exact {past : List Turn} {e : Engine} {k : Nat} (h : Run past e)
    (hr : ExactRange k past) : e.Suited := by
  induction h with
  | start => exact Engine.Each.empty _ _
  | @turn past e call h ih =>
      have hr' := hr.suffix (h.turn call) (List.suffix_cons _ _)
      have hsuited := ih hr'
      obtain ⟨hst, -, -⟩ := h.exact hr'
      have hcap : exactSum (past.filterMap Turn.accepted?) + 0 +
          (Precision.exact k hr'.le).drift past.length ≤ (Precision.exact k hr'.le).cap := by
        have hslack : (Precision.exact k hr'.le).slack = 0 := rfl
        have hle := hr'.le_cap
        rw [Precision.drift, hslack, Nat.zero_mul]
        omega
      by_cases hok : (e.perform call).answer.fault? = none
      · exact Engine.perform_suited hsuited hst.sound hst.lively call hok
      · have hstopped := Engine.stopped hok
        cases call with
        | addInstrument config => exact hstopped.elim
        | submit world intent =>
            obtain ⟨f, ha⟩ := hstopped
            obtain ⟨-, hrests, -⟩ := Engine.submit_error hst hcap ha
            exact hsuited.of_rests
              (Engine.unshaken_configs.submit e world intent fun _ _ _ => trivial)
              fun j o => (hrests j o).mp
        | cancel world id =>
            obtain ⟨f, ha⟩ := hstopped
            obtain ⟨⟨r, hok⟩, -⟩ := Engine.cancel_steady hst world id (by
              have hdrift : 0 ≤ (Precision.exact k hr'.le).drift past.length := by
                unfold Precision.drift
                omega
              omega)
            rw [ha] at hok
            cases hok
        | modify world id request =>
            obtain ⟨f, ha⟩ := hstopped
            obtain ⟨-, hrests, -⟩ := Engine.modify_error hst hcap ha
            exact hsuited.of_rests
              (Engine.unshaken_configs.modify e world id request fun _ _ _ => trivial) hrests

/-- In a run in `ExactRange`, whatever it meets, the sides of a registered instrument show what
rests there. A snapshot of any depth is given, and it is `Faithful`; it begins like any deeper one,
and unless it is empty its best prices are those of the book. -/
theorem snapshots_are_faithful {past : List Turn} {e : Engine} {k : Nat} (h : Run past e)
    (hr : ExactRange k past) {symbol : String} {i : Nat} {slot : Slot}
    (hl : e.lookup? symbol = some (i, slot)) :
    ∃ bids asks, Shows .buy slot.book.bids.orders bids ∧ Shows .sell slot.book.asks.orders asks ∧
      ∀ n, ∃ s, e.snapshot symbol n = .ok (some s) ∧ s.Faithful slot.book n bids asks ∧
        (0 < n → e.bestPrices? symbol = some (s.bestBid?, s.bestAsk?)) ∧
        ∀ m ≤ n, ∀ s', e.snapshot symbol m = .ok (some s') →
          s'.bids <+: s.bids ∧ s'.asks <+: s.asks := by
  obtain ⟨hst, -, -⟩ := h.exact hr
  have hslot := Engine.slot_of_lookup? hl
  have hb := hst.book i slot hslot
  have hasked (n : Nat) : e.snapshot symbol n = (slot.book.snapshot n).map some := by
    rw [Engine.snapshot, hl]
  have hfaithful {n : Nat} {s : BookSnapshot} (hs : slot.book.snapshot n = .ok s) :=
    hb.faithful rfl hr.le_cap hs
  refine ⟨_, _, hb.balanced.shows hb.sound .buy, hb.balanced.shows hb.sound .sell, fun n => ?_⟩
  obtain ⟨s, hs⟩ := hb.snapshot_isOk (h.suited_of_exact hr i slot hslot) n
  refine ⟨s, by rw [hasked, hs]; rfl, hfaithful hs, fun hn => ?_, fun m hm s' hs' => ?_⟩
  · have hbids := (hfaithful hs).bids_eq
    have hasks := (hfaithful hs).asks_eq
    unfold BookSnapshot.bestBid? BookSnapshot.bestAsk?
    rw [hbids, hasks, Engine.bestPrices?, hl, Ladder.head?_take hn, Ladder.head?_take hn]
    rfl
  · rw [hasked] at hs'
    cases hsm : slot.book.snapshot m with
    | error f => rw [hsm] at hs'; cases hs'
    | ok s'' =>
        rw [hsm] at hs'
        cases hs'
        rw [(hfaithful hs).bids_eq, (hfaithful hs).asks_eq, (hfaithful hsm).bids_eq,
          (hfaithful hsm).asks_eq]
        exact ⟨List.take_prefix_take_left hm, List.take_prefix_take_left hm⟩

/-- Two and a half are offered in two orders at eleven, the second written with a digit more, and
one at twelve; one is bid for at nine. Of the first offer three quarters are bought, and the one at
twelve is halved. -/
def stairs : List Call :=
  [.addInstrument (.plain "X"),
    .submit (.handing 1) (.limit "X" .sell (.scaled 11 0) (.scaled 225 2)),
    .submit (.handing 2) (.limit "X" .sell (.scaled 12 0) 1),
    .submit (.handing 3) (.limit "X" .sell (.scaled 110 1) (.scaled 25 2)),
    .submit (.handing 4) (.limit "X" .buy (.scaled 9 0) 1),
    .submit (.handing 5) (.market "X" .buy (.scaled 75 2)),
    .modify (.handing 6) ⟨.ofNat 2⟩ ⟨none, .scaled 5 1⟩]

theorem snapshots_are_faithful_stairs :
    ∃ i slot s, ((Engine.empty .priceTime).follow [] stairs).2.lookup? "X" = some (i, slot) ∧
      ((Engine.empty .priceTime).follow [] stairs).2.snapshot "X" 3 = .ok (some s) ∧
      s.asks.map (fun entry => (entry.1.atoms, entry.2.atoms)) =
        [(1100, 175), (1200, 50)].map (fun a : Int × Int => (a.1 * tenTo 26, a.2 * tenTo 26)) ∧
      s.totalAsk.atoms = left slot.book.asks.orders := by
  have hrange : ExactRange 2 ((Engine.empty .priceTime).follow [] stairs).1 :=
    ⟨by decide, by decide +kernel, by decide +kernel⟩
  obtain ⟨⟨i, slot⟩, hl⟩ := Option.isSome_iff_exists.mp (show
    (((Engine.empty .priceTime).follow [] stairs).2.lookup? "X").isSome = true by decide +kernel)
  obtain ⟨bids, asks, -, -, hall⟩ := snapshots_are_faithful (History.start.follow stairs) hrange hl
  obtain ⟨s, hs, hfaithful, -⟩ := hall 3
  have hshown : (((Engine.empty .priceTime).follow [] stairs).2.snapshot "X" 3).toOption.map
      (fun s => s.map fun s => s.asks.map fun entry => (entry.1.atoms, entry.2.atoms)) =
        some (some ([(1100, 175), (1200, 50)].map
          fun a : Int × Int => (a.1 * tenTo 26, a.2 * tenTo 26))) := by decide +kernel
  rw [hs] at hshown
  have hasks := Option.some.inj (Option.some.inj hshown)
  dsimp only at hasks
  -- A depth of three shows two prices, so there are no more.
  have hlen := congrArg List.length hasks
  rw [hfaithful.asks_eq, List.length_map, List.length_take, List.length_map] at hlen
  refine ⟨i, slot, s, hl, hs, hasks, hfaithful.totalAsk_eq ?_⟩
  change min 3 asks.length = 2 at hlen
  omega

end Bourse
