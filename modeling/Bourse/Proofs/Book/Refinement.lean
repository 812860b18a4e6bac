import Bourse.Config.Instrument
import Bourse.Proofs.Book.Failure
import Bourse.Proofs.Book.Lines
import Bourse.Proofs.Book.Room

/-!
# A book is its lines

Levels, sums and index are there to be fast. Whatever is asked of a book, the answer is
the one that `Request.serve` gives on its lines alone, and the lines afterwards are what
the request makes of them; if it cannot be met, they are what they were. `Request.Meets`
says that. There is one exception, `Request.Blocked`. Where a refused order has left a
level without orders in front, the head of the line cannot be filled, though there may be
one.

For that to hold no sum may overflow, so the orders are of a size (`Request.Plain`) and
the requests are not too many (`reach_le`).
-/

namespace Bourse

open Decimal (halfUnit greatestAtoms)

namespace Book

/-- Any request, if only the order it brings can trade and is no larger than is allowed. -/
def Request.Plain : Request → Prop
  | .insert o => o.status.isLive = true ∧ o.remaining ≤ o.quantity ∧
    o.quantity ≤ maxOrderQuantity
  | _ => True

instance : DecidablePred Request.Plain
  | .insert _ => inferInstanceAs (Decidable (_ ∧ _ ∧ _))
  | .cancel _ => isTrue trivial
  | .take _ => isTrue trivial
  | .removeFilled _ => isTrue trivial
  | .fillBest _ _ => isTrue trivial
  | .reduce _ _ => isTrue trivial

/-- The level to be filled has no orders. -/
def Request.Blocked (b : Book) : Request → Prop
  | .fillBest side _ => ∃ level post, (b.ladder side).levels = level :: post ∧ level.orders = []
  | _ => False

/-- A book does what is asked of it as `serve` does on its lines. -/
structure Request.Meets (r : Request) (b : Book) : Prop where
  served : ¬ r.Blocked b → ∀ o lines, r.serve b.lines = some (o, lines) →
    r.run b = .ok (some o) (r.after b) ∧ (r.after b).lines = lines
  declined : r.Blocked b ∨ r.serve b.lines = none →
    r.Fails b (r.after b) ∧ (r.after b).lines = b.lines

section Meets

variable {r : Request} {b b' : Book} {P : Book → Prop} {o : Order} {lines : Lines}

/-- A request that `serve` can meet has been met. -/
theorem meets_of_served (hserve : r.serve b.lines = some (o, lines)) (hfree : ¬ r.Blocked b)
    (hrun : r.run b = .ok (some o) b') (hlines : b'.lines = lines) (hP : P b') :
    r.Meets b ∧ P (r.after b) := by
  have hafter : r.after b = b' := by rw [Request.after, Attempt.outcome_ok hrun]
  rw [hafter]
  refine ⟨⟨fun _ o' lines' h => ?_, fun h => ?_⟩, hP⟩
  · rw [hserve] at h
    cases h
    rw [hafter]
    exact ⟨hrun, hlines⟩
  · rcases h with h | h
    · exact absurd h hfree
    · rw [hserve] at h
      cases h

/-- A request that `serve` declines, or that is `Blocked`, has not been met. -/
theorem meets_of_declined (hnone : r.Blocked b ∨ r.serve b.lines = none) (hfails : r.Fails b b')
    (hlines : b'.lines = b.lines) (hP : P b') : r.Meets b ∧ P (r.after b) := by
  have hafter : r.after b = b' := by
    rcases hfails with hrun | ⟨v, hrun⟩
    · rw [Request.after, Attempt.outcome_ok hrun]
    · rw [Request.after, Attempt.outcome_error hrun]
  rw [hafter]
  refine ⟨⟨fun hfree o' lines' h => ?_, fun _ => ?_⟩, hP⟩
  · rcases hnone with hblocked | hnone
    · exact absurd hblocked hfree
    · rw [hnone] at h
      cases h
  · rw [hafter]
    exact ⟨hfails, hlines⟩

end Meets

section Requests

variable {credit most : Int} {b : Book} {o : Order} {id : OrderId} {side : Side} {q : Quantity}

theorem Roomy.meets_insert (h : b.Roomy credit most) (hs : b.Sound)
    (hplain : (Request.insert o).Plain)
    (hcap : credit ≤ greatestAtoms ∧ most + maxOrderQuantity.atoms ≤ greatestAtoms) :
    (Request.insert o).Meets b ∧ ((Request.insert o).after b).Roomy (credit + 2 * halfUnit)
      (most + maxOrderQuantity.atoms + halfUnit) := by
  obtain ⟨hlive, hle, hsize⟩ := hplain
  rcases h.insert hs hlive hle hsize (by decide) hcap with
    ⟨hok, b', hrun, harr, hroomy⟩ | ⟨hrefused, v, b', hrun, hkept, hroomy⟩
  · refine meets_of_served (o := o) ?_ not_false ?_ (harr.lines_eq hs hok.free) hroomy
    · exact if_pos (hs.admits_iff.mpr hok)
    · rw [run_insert, hrun]
  · refine meets_of_declined (Or.inr ?_) (Or.inr ⟨v, ?_⟩) (hkept.lines_eq hs) hroomy
    · exact if_neg fun hok => hrefused (hs.admits_iff.mp hok)
    · rw [run_insert, hrun]

theorem Roomy.meets_take (h : b.Roomy credit most) (hs : b.Sound) (hcap : credit ≤ greatestAtoms) :
    (Request.take id).Meets b ∧ ((Request.take id).after b).Roomy credit most := by
  by_cases hid : b.Has id
  · obtain ⟨o, ho, rfl⟩ := hid
    obtain ⟨b', hrun, hdep, hroomy⟩ := h.take hs ho hcap
    refine meets_of_served ?_ not_false hrun (hdep.lines_eq hs) hroomy
    rw [Request.serve, hs.find?_held ho]
    rfl
  · refine meets_of_declined (Or.inr ?_) (Or.inl (take_absent hs hid)) rfl h
    rw [Request.serve, hs.find?_absent hid]
    rfl

theorem Roomy.meets_cancel (h : b.Roomy credit most) (hs : b.Sound)
    (hcap : credit ≤ greatestAtoms) :
    (Request.cancel id).Meets b ∧ ((Request.cancel id).after b).Roomy credit most := by
  have hcancel : (Request.cancel id).run b = cancel id b := rfl
  rw [cancel_run] at hcancel
  by_cases hid : b.Has id
  · obtain ⟨o, ho, rfl⟩ := hid
    obtain ⟨b', hrun, hdep, hroomy⟩ := h.take hs ho hcap
    refine meets_of_served (o := { o with status := .cancelled }) ?_ not_false ?_
      (hdep.lines_eq hs) hroomy
    · rw [Request.serve, hs.find?_held ho]
      rfl
    · rw [hcancel, hrun]
      dsimp only
      rw [Order.cancel_eq, if_pos (h.solvent.lively o ho).1]
      rfl
  · refine meets_of_declined (Or.inr ?_) (Or.inl ?_) rfl h
    · rw [Request.serve, hs.find?_absent hid]
      rfl
    · rw [hcancel, take_absent hs hid]

/-- Nothing that rests has been used up. -/
theorem Roomy.meets_removeFilled (h : b.Roomy credit most) (hs : b.Sound) :
    (Request.removeFilled id).Meets b ∧ ((Request.removeFilled id).after b).Roomy credit most := by
  by_cases hid : b.Has id
  · obtain ⟨o, ho, rfl⟩ := hid
    have hpos := (h.solvent.lively o ho).2
    refine meets_of_declined (Or.inr ?_) (Or.inr ⟨.notFilled o.id, ?_⟩) rfl h
    · rw [Request.serve, hs.find?_held ho]
      exact if_pos hpos
    · rw [run_removeFilled, removeFilled_run hs ho, if_pos hpos]
  · refine meets_of_declined (Or.inr ?_) (Or.inr ⟨.unknownOrder id, ?_⟩) rfl h
    · rw [Request.serve, hs.find?_absent hid]
      rfl
    · rw [run_removeFilled, removeFilled_absent hs hid]

theorem Roomy.meets_fillBest (h : b.Roomy credit most) (hs : b.Sound)
    (hcap : credit ≤ greatestAtoms) :
    (Request.fillBest side q).Meets b ∧
      ((Request.fillBest side q).after b).Roomy (credit + 2 * halfUnit) most := by
  have hkept : b.Roomy (credit + 2 * halfUnit) most := h.mono (by omega) (Int.le_refl _)
  have hline : b.lines side = (b.ladder side).levels.flatMap Level.orders := rfl
  -- Without an order in front nothing happens, be it that the side is empty or its first level.
  have hvain (hfront : (b.ladder side).best?.bind Level.front? = none)
      (hnone : (Request.fillBest side q).Blocked b ∨
        (Request.fillBest side q).serve b.lines = none) :
      (Request.fillBest side q).Meets b ∧
        ((Request.fillBest side q).after b).Roomy (credit + 2 * halfUnit) most := by
    obtain ⟨price, hrun⟩ := fillBest_absent hfront q
    refine meets_of_declined hnone (Or.inr ⟨.emptyLevel price, ?_⟩) rfl hkept
    rw [run_fillBest, hrun]
  cases hl : (b.ladder side).levels with
  | nil =>
      refine hvain ?_ (Or.inr ?_)
      · rw [Ladder.best?, hl]
        rfl
      · rw [Request.serve, hline, hl]
        rfl
  | cons level post =>
      cases hx : level.orders with
      | nil =>
          refine hvain ?_ (Or.inl ⟨level, post, hl, hx⟩)
          rw [Ladder.best?, hl, List.head?_cons, Option.bind_some, Level.front?, hx]
          rfl
      | cons o ys =>
          have hhead : b.lines side = o :: (ys ++ post.flatMap Level.orders) := by
            rw [hline, hl, List.flatMap_cons, hx, List.cons_append]
          have hfree : ¬ (Request.fillBest side q).Blocked b := by
            rintro ⟨level', post', hl', hx'⟩
            rw [hl] at hl'
            cases hl'
            rw [hx] at hx'
            cases hx'
          have hfill := h.fillBest hs hl hx q hcap
          cases hf : o.fill q with
          | error f =>
              rw [hf] at hfill
              obtain ⟨v, hrun⟩ := hfill
              refine meets_of_declined (Or.inr ?_) (Or.inr ⟨v, ?_⟩) rfl hkept
              · rw [Request.serve, hhead]
                dsimp only
                rw [hf]
              · rw [run_fillBest, hrun]
          | ok o' =>
              rw [hf] at hfill
              obtain ⟨b', hrun, hchange, hroomy⟩ := hfill
              have hlines : b'.lines = b.lines.set side (if o'.remaining.SameValue 0 then
                  ys ++ post.flatMap Level.orders
                else o' :: (ys ++ post.flatMap Level.orders)) := by
                split at hchange
                · next hz =>
                    rw [if_pos hz]
                    exact hchange.lines_head hs hhead
                · next hz =>
                    rw [if_neg hz]
                    exact hchange.lines_head hs (Order.fill_same hf) hhead
              refine meets_of_served (o := o') ?_ hfree ?_ hlines hroomy
              · rw [Request.serve, hhead]
                dsimp only
                rw [hf]
              · rw [run_fillBest, hrun]

theorem Roomy.meets_reduce (h : b.Roomy credit most) (hs : b.Sound)
    (hcap : credit ≤ greatestAtoms ∧ most + halfUnit ≤ greatestAtoms) :
    (Request.reduce id q).Meets b ∧
      ((Request.reduce id q).after b).Roomy (credit + 2 * halfUnit) (most + 2 * halfUnit) := by
  have hkept : b.Roomy (credit + 2 * halfUnit) (most + 2 * halfUnit) :=
    h.mono (by omega) (by omega)
  by_cases hid : b.Has id
  · obtain ⟨o, ho, rfl⟩ := hid
    by_cases hq : q ≤ 0 ∨ o.remaining < q
    · obtain ⟨_, -, _, _, -, hrun⟩ := reduce_cases hs ho q
      rw [if_pos hq] at hrun
      refine meets_of_declined (Or.inr ?_) (Or.inr ⟨_, by rw [run_reduce, hrun]⟩) rfl hkept
      rw [Request.serve, hs.find?_held ho]
      exact if_pos hq
    · have hpos : 0 < q := Int.not_le.mp fun hle => hq (Or.inl hle)
      have hle : q ≤ o.remaining := Int.not_lt.mp fun hlt => hq (Or.inr hlt)
      obtain ⟨o', b', hrun, hset, hw, hroomy⟩ := h.reduce hs ho hpos hle hcap
      refine meets_of_served ?_ not_false (by rw [run_reduce, hrun])
        (hw.lines_eq hs ho (Order.same_of_setRemaining hset)) hroomy
      rw [Request.serve, hs.find?_held ho, Option.bind_some, if_neg hq, hset]
  · refine meets_of_declined (Or.inr ?_) (Or.inr ⟨.unknownOrder id, ?_⟩) rfl hkept
    · rw [Request.serve, hs.find?_absent hid]
      rfl
    · rw [run_reduce, reduce_absent hs hid]

/-- What a `Plain` request may cost a `Roomy` book. -/
theorem Roomy.meets (h : b.Roomy credit most) (hs : b.Sound) {r : Request} (hr : r.Plain)
    (hcap : credit ≤ greatestAtoms ∧
      most + maxOrderQuantity.atoms + 2 * halfUnit ≤ greatestAtoms) :
    r.Meets b ∧ (r.after b).Roomy (credit + 2 * halfUnit)
      (most + maxOrderQuantity.atoms + 2 * halfUnit) := by
  have hsize : 0 ≤ maxOrderQuantity.atoms := by decide
  cases r with
  | insert o =>
      obtain ⟨hmeets, hroomy⟩ := h.meets_insert hs hr ⟨hcap.1, by omega⟩
      exact ⟨hmeets, hroomy.mono (Int.le_refl _) (by omega)⟩
  | cancel id =>
      obtain ⟨hmeets, hroomy⟩ := h.meets_cancel hs hcap.1
      exact ⟨hmeets, hroomy.mono (by omega) (by omega)⟩
  | take id =>
      obtain ⟨hmeets, hroomy⟩ := h.meets_take hs hcap.1
      exact ⟨hmeets, hroomy.mono (by omega) (by omega)⟩
  | removeFilled id =>
      obtain ⟨hmeets, hroomy⟩ := h.meets_removeFilled hs
      exact ⟨hmeets, hroomy.mono (by omega) (by omega)⟩
  | fillBest side q =>
      obtain ⟨hmeets, hroomy⟩ := h.meets_fillBest hs hcap.1
      exact ⟨hmeets, hroomy.mono (Int.le_refl _) (by omega)⟩
  | reduce id q =>
      obtain ⟨hmeets, hroomy⟩ := h.meets_reduce hs ⟨hcap.1, by omega⟩
      exact ⟨hmeets, hroomy.mono (Int.le_refl _) (by omega)⟩

end Requests

/-! ## Long sequences of requests -/

/-- How far the sums of a book may have got after a number of requests. -/
def reach (n : Nat) : Int := n * (maxOrderQuantity.atoms + 2 * halfUnit)

theorem reach_succ (n : Nat) :
    reach (n + 1) = reach n + maxOrderQuantity.atoms + 2 * halfUnit := by
  unfold reach
  rw [Int.natCast_add, Int.add_mul, Int.natCast_one, Int.one_mul, Int.add_assoc]

/-- Ten thousand million requests take no sum out of range. -/
theorem reach_le {n : Nat} (hn : n < 10000000000) :
    (n : Int) * (2 * halfUnit) ≤ greatestAtoms ∧
      reach n + maxOrderQuantity.atoms + 2 * halfUnit ≤ greatestAtoms := by
  have hcount : (n : Int) ≤ 10000000000 ∧ ((n + 1 : Nat) : Int) ≤ 10000000000 := by omega
  rw [← reach_succ]
  constructor
  · exact Int.le_trans (Int.mul_le_mul_of_nonneg_right hcount.1 (by decide)) (by decide)
  · exact Int.le_trans (Int.mul_le_mul_of_nonneg_right hcount.2 (by decide)) (by decide)

theorem Reached.roomy {symbol : String} {n : Nat} {b : Book}
    (h : Reached Request.Plain symbol n b) (hn : n ≤ 10000000000) :
    b.Roomy (n * (2 * halfUnit)) (reach n) := by
  induction h with
  | empty => exact (roomy_empty symbol).mono (by omega) (by unfold reach; omega)
  | @ask n b r hr h ih =>
      have hroomy := ((ih (by omega)).meets h.sound hr (reach_le hn)).2
      rw [← reach_succ] at hroomy
      refine hroomy.mono ?_ (Int.le_refl _)
      rw [Int.natCast_add, Int.add_mul, Int.natCast_one, Int.one_mul]

/-- A book that fewer than ten thousand million requests have made of an empty one is `InStep` with
its lines, and `Meets` what is asked of it next as its lines say. Of the requests nothing is asked
but that the orders they bring are live and no larger than is allowed. -/
theorem book_refines_lines {symbol : String} {n : Nat} {b : Book}
    (h : Reached Request.Plain symbol n b) (hn : n < 10000000000) :
    b.InStep ∧ ∀ r : Request, r.Plain → r.Meets b ∧ (r.after b).InStep := by
  have hroomy := h.roomy (Nat.le_of_lt hn)
  refine ⟨h.sound.inStep h.keyed hroomy.solvent.lively, fun r hr => ?_⟩
  obtain ⟨hmeets, hafter⟩ := hroomy.meets h.sound hr (reach_le hn)
  have hnext := h.ask r hr
  exact ⟨hmeets, hnext.sound.inStep hnext.keyed hafter.solvent.lively⟩

/-- A new limit order. -/
def lot (n : Nat) (side : Side) (price : Price) (q : Quantity) (sequence : Nat) : Order :=
  { spent with
    id := ⟨.ofNat n⟩, side, price := some price, quantity := q, remaining := q, sequence }

/-- Two bids at one number, the later one with the lower sequence number; one that is refused for
having nothing left, but opens a level above them; one under an identity that rests; and an ask.
The bids are asked to be filled, which the empty level prevents, and the ask is filled. -/
def dealings : List Request :=
  [.insert (lot 1 .buy (.scaled 10 1) 1 5),
    .insert (lot 2 .buy (.scaled 100 2) 1 3),
    .insert { lot 3 .buy (.scaled 2 0) 1 4 with remaining := 0 },
    .insert (lot 1 .sell 1 1 6),
    .insert (lot 4 .sell (.scaled 3 0) 1 7),
    .fillBest .buy 1,
    .fillBest .sell (.scaled 5 1)]

theorem book_refines_lines_dealings :
    ((∀ r ∈ dealings, r.Plain) ∧ dealings.length < 10000000000) ∧
      (afterAll "X" dealings).InStep ∧
      (Request.cancel ⟨⟨2, by decide⟩⟩).Meets (afterAll "X" dealings) ∧
      ((afterAll "X" dealings).lines .buy).map (fun o => o.id.uuid.toNat) = [2, 1] ∧
      (afterAll "X" dealings).bids.levels.map (fun l => l.orders.length) = [0, 2] := by
  have hplain : ∀ r ∈ dealings, r.Plain := by decide +kernel
  have hlength : dealings.length < 10000000000 := by decide
  have hreached : Reached Request.Plain "X" dealings.length (afterAll "X" dealings) :=
    .all hplain
  obtain ⟨hstep, hnext⟩ := book_refines_lines hreached hlength
  obtain ⟨hmeets, -⟩ := hnext (.cancel ⟨⟨2, by decide⟩⟩) trivial
  exact ⟨⟨hplain, hlength⟩, hstep, hmeets, by decide +kernel, by decide +kernel⟩

end Book

end Bourse
