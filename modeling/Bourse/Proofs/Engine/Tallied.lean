import Bourse.Proofs.Outcome
import Bourse.Proofs.Ledger.Totals
import Bourse.Proofs.Run.Basic

/-!
# What is answered can be added up

The trades of an answer are drawn one after another from what was sent in, a new quantity
or what is left of an order that is sent in again (`Trades.draws`), and the checks keep
that small. So they can be added up, and the answer is `Tallied`, whatever the state of
the book they were made in. Nothing here asks for a sound book, and an answer that tells
of trades is read backwards through the code to the matching that has made them.
-/

namespace Bourse

namespace Encounter

variable {e e' : Encounter} {fill : Fill} {moments : List (Encounter × Fill)}

theorem Step.incoming_fill (h : Step e fill e') :
    e.incoming.fill fill.quantity = .ok e'.incoming := by
  obtain ⟨maker, -, hrun⟩ := h.run
  rw [trade_run] at hrun
  split at hrun
  · cases hrun
  · split at hrun
    · cases hrun
    · next hfill =>
        injection hrun with hmade hleft
        rw [← hmade, ← hleft]
        exact hfill

/-- The quantities of a matching are drawn from what is left of the incoming order. -/
theorem Trades.draws {asked : Quantity} {before : List Quantity} {gain : Int}
    (h : Trades e moments e') (hbefore : Draws asked before e.incoming.remaining gain) :
    ∃ gain', Draws asked (((moments.map Prod.snd).map Fill.quantity).reverse ++ before)
      e'.incoming.remaining gain' := by
  induction h generalizing before gain with
  | none => exact ⟨gain, hbefore⟩
  | @some e e₁ e' fill rest hstep _ ih =>
      -- The guard against overfilling in `fill` is all that a draw asks for.
      obtain ⟨hpos, hle, -, left, hleft, hincoming⟩ := Order.fill_eq_ok hstep.incoming_fill
      have hremaining : e₁.incoming.remaining = left := congrArg Order.remaining hincoming
      rw [← hremaining] at hleft
      obtain ⟨gain', hdraws⟩ := ih (hbefore.some hpos hle hleft)
      refine ⟨gain', ?_⟩
      rw [List.map_cons, List.map_cons, List.reverse_cons, List.append_assoc]
      exact hdraws

end Encounter

theorem Draws.pos {asked left : Quantity} {trades : List Quantity} {gain : Int}
    (h : Draws asked trades left gain) : ∀ q ∈ trades, 0 < q := by
  induction h with
  | none => exact List.forall_mem_nil _
  | some _ hpos _ _ ih => exact List.forall_mem_cons.mpr ⟨hpos, ih⟩

namespace OrderResult

variable {r : OrderResult}

theorem tallied_of_draws {asked left : Quantity} {gain : Int}
    (h : Draws asked (r.trades.map Trade.quantity).reverse left gain) (hnonneg : 0 ≤ asked)
    (hmost : asked ≤ maxOrderQuantity) : ∃ filled, r.Tallied filled := by
  obtain ⟨total, hsum, htotalled, hpos⟩ := h.totalled hnonneg hmost
  rw [List.reverse_reverse] at hsum
  refine ⟨total, orFault_eq_ok.mpr hsum, hpos.trans ?_, htotalled.nonneg, fun t ht => ?_⟩
  · rw [ne_eq, ne_eq, List.reverse_eq_nil_iff, List.map_eq_nil_iff]
  · exact h.pos _ (List.mem_reverse.mpr (List.mem_map_of_mem ht))

theorem tallied_of_idle (h : r.trades = []) : ∃ filled, r.Tallied filled := by
  have hnone : Draws 0 (r.trades.map Trade.quantity).reverse 0 0 := by
    rw [h]
    exact .none
  exact tallied_of_draws hnone (Int.le_refl _) (by decide)

end OrderResult

namespace Desk

variable {world : Surroundings} {d d' : Desk} {r : OrderResult}

theorem Narrates.quantities_eq {taker : Order} {fills : List Fill} {trades : List Trade}
    {events : List Event} (h : Narrates world taker fills trades events) :
    trades.map Trade.quantity = fills.map Fill.quantity := by
  have hall := congrArg (List.map fun t => t.2.2.2) h.trades_eq.2
  rw [List.map_map, List.map_map] at hall
  exact hall

theorem kill_idle {o : Order} (h : kill world o d = .ok r d') : r.trades = [] := by
  rw [kill_run] at h
  split at h
  · cases h
  · split at h
    · cases h
    · cases h
      rfl

theorem execute_tallied {o : Order} (hnonneg : 0 ≤ o.remaining)
    (hmost : o.remaining ≤ maxOrderQuantity) (h : execute .priceTime world o d = .ok r d') :
    ∃ filled, r.Tallied filled := by
  rw [execute_run] at h
  split at h
  · exact OrderResult.tallied_of_idle (kill_idle h)
  · rw [matchOrder_priceTime, Encounter.priceTime_run] at h
    cases hmatch : Encounter.tradeUpTo
        (Encounter.across ⟨o, d.book⟩).orders.length ⟨o, d.book⟩ with
    | error f e' => rw [hmatch] at h; cases h
    | ok fills e' =>
        rw [hmatch] at h
        dsimp only at h
        obtain ⟨moments, hm, rfl, -⟩ := Encounter.trades_of_tradeUpTo hmatch
        split at h
        · cases h
        · next trades d₂ hreports =>
            split at h
            · cases h
            · split at h
              · cases h
              · cases h
                obtain ⟨events, -, hstory⟩ := narrates_of_reports hreports
                have hstart : Draws o.remaining [] o.remaining 0 := .none
                obtain ⟨gain, hdraws⟩ := hm.draws hstart
                rw [List.append_nil, ← hstory.quantities_eq] at hdraws
                exact OrderResult.tallied_of_draws hdraws hnonneg hmost

/-- An order that `reenter` sends in again asks for the new quantity. -/
theorem reenter_tallied {id : OrderId} {price : Option Price} {q : Quantity} (hnonneg : 0 ≤ q)
    (hmost : q ≤ maxOrderQuantity) (h : reenter .priceTime world id price q d = .ok r d') :
    ∃ filled, r.Tallied filled := by
  rw [reenter_run] at h
  split at h
  · cases h
  · cases h
  · split at h
    · cases h
    · next hset =>
        obtain ⟨_, _, -, -, rfl⟩ := Order.setRemaining_eq_ok hset
        exact execute_tallied hnonneg hmost h

theorem lessen_idle {id : OrderId} {q : Quantity} (h : lessen world id q d = .ok r d') :
    r.trades = [] := by
  rw [lessen_run] at h
  split at h
  · cases h
  · split at h
    · cases h
    · cases h
      rfl

theorem modifyOrder_tallied {id : OrderId} {request : ModifyRequest}
    (hnonneg : 0 ≤ request.quantity) (hmost : request.quantity ≤ maxOrderQuantity)
    (h : modifyOrder .priceTime world id request d = .ok (.modified r) d') :
    ∃ filled, r.Tallied filled := by
  rw [modifyOrder_run] at h
  split at h
  · cases h
  · split at h
    · cases h
      exact OrderResult.tallied_of_idle rfl
    · split at h
      · obtain ⟨_, hlessen, heq⟩ := modified_eq_ok h
        cases heq
        exact OrderResult.tallied_of_idle (lessen_idle hlessen)
      · obtain ⟨_, hreenter, heq⟩ := modified_eq_ok h
        cases heq
        exact reenter_tallied hnonneg hmost hreenter

end Desk

namespace Engine

variable {e : Engine} {world : Surroundings} {r : OrderResult}

theorem submit_tallied (hrule : e.rule = .priceTime) {intent : OrderIntent}
    (ha : (e.submit world intent).answer = .ok (.ok r)) : ∃ filled, r.Tallied filled := by
  obtain ⟨i, slot, hadm⟩ := admits_of_accepted ha
  obtain ⟨reply, hreply, -, hanswer, -⟩ := submit_of_admits hadm
  obtain ⟨r', hok, hr⟩ := map_eq_ok.mp (hanswer.symm.trans ha)
  cases hr
  rw [hreply, hrule] at hok
  obtain ⟨d, hrun, -⟩ := guarded_of_ok hok
  have hpassed := passed_of_checkIntent hadm.checked
  exact Desk.execute_tallied (Int.le_of_lt hpassed.pos) hpassed.le hrun

theorem modify_tallied (hrule : e.rule = .priceTime) {id : OrderId} {request : ModifyRequest}
    (ha : (e.modify world id request).answer = .ok (.modified r)) : ∃ filled, r.Tallied filled := by
  obtain ⟨i, slot, hrevises⟩ := revises_of_modified ha
  rw [modify_of_revises hrevises, hrule] at ha
  obtain ⟨d, hrun, -⟩ := guarded_of_ok ha
  obtain ⟨hpos, hmost⟩ := passed_of_checkRequest hrevises.checked
  exact Desk.modifyOrder_tallied (Int.le_of_lt hpos) hmost hrun

end Engine

end Bourse
