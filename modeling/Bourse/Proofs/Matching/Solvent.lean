import Bourse.Proofs.Matching
import Bourse.Proofs.Book.Solvent

/-!
# Matching in a solvent book

In a `Solvent` book no trade breaks off, whatever the incoming order is. A maker that is
used up has paid for its going, so a matching costs the credit no more than its last trade
does, however many there were.

So price-time priority makes whole trades there, and so does any rule by script
(`whole_scripted`): it may let nothing trade or report a violation, but it reports it
before the first trade or after the last.
-/

namespace Bourse

open Decimal (halfUnit greatestAtoms)

namespace Encounter

variable {credit : Int} {e e' : Encounter} {fill : Fill} {level : Level} {post : List Level}
  {maker : Order} {ys : List Order} {total : Quantity} {moments : List (Encounter × Fill)}

theorem Deal.solvent (h : Deal e fill e' level post maker ys total)
    (hb : e.book.Solvent credit) :
    e'.book.Solvent (credit + 2 * halfUnit) ∧
      (fill.maker.remaining.SameValue 0 → e'.book.Solvent credit) := by
  have hl : level ∈ (e.book.ladder e.incoming.side.opposite).levels := by
    change level ∈ e.across.levels
    rw [h.levels_eq]
    exact List.mem_cons_self
  refine hb.fill hl h.orders_eq h.maker_fill h.total_eq (h.lively hb.lively) ?_
  have hbook := h.book
  split at hbook
  · next hz =>
      obtain ⟨total', htotal, hx, -⟩ := hbook
      rw [if_pos hz]
      exact ⟨total', htotal, hx⟩
  · next hz =>
      rw [if_neg hz]
      exact hbook.1

/-- A matching costs no more than its last trade. -/
theorem Trades.solvent (h : Trades e moments e') (hs : e.book.Sound) (hb : e.book.Solvent credit) :
    e'.book.Solvent (credit + 2 * halfUnit) := by
  induction h with
  | none => exact hb.mono (by omega)
  | @some e e₁ e' fill rest hstep htail ih =>
      obtain ⟨level, post, maker, ys, total, hdeal⟩ := hstep.deal hs
      obtain ⟨hcost, hfree⟩ := hdeal.solvent hb
      rcases hdeal.used_up_or_whole with hz | hwhole
      · -- An order that is used up trades no more.
        cases htail with
        | none => exact hcost
        | some hstep' _ => exact absurd hstep'.left (Int.not_lt.mpr (Int.le_of_eq hz))
      · have hused : fill.maker.remaining.SameValue 0 := by
          rw [Order.fill_used_up_iff hdeal.maker_fill, hwhole]
          exact Decimal.SameValue.refl _
        exact ih (hdeal.worn hs).sound (hfree hused)

/-- In a `Solvent` book `priceTime` comes to its end. -/
theorem priceTime_of_solvent (hs : e.book.Sound) (hb : e.book.Solvent credit)
    (hlive : e.incoming.status.isLive = true) (hcap : credit ≤ greatestAtoms) :
    ∃ moments e', Trades e moments e' ∧ priceTime e = .ok (moments.map Prod.snd) e' := by
  have hrun : ∃ fills e', priceTime e = .ok fills e' := by
    rw [priceTime_run]
    refine tradeUpTo_isOk_of (P := fun _ e => e.book.Sound ∧ e.book.Solvent credit ∧
        (0 < e.incoming.remaining → e.incoming.status.isLive = true))
      (fun {_ e _ maker} h hpos hnext => ?_) (fun h hstep hpos => ?_) ⟨hs, hb, fun _ => hlive⟩
    · obtain ⟨hs, hb, hlive⟩ := h
      obtain ⟨_, _, _, hl, -, hx⟩ := nextMaker?_eq_some.mp hnext
      have hmaker : maker ∈ e.across.orders := by
        rw [Ladder.orders, hl, List.flatMap_cons, hx]
        exact List.mem_append_left _ List.mem_cons_self
      refine trade_isOk_of_sub hs (hlive hpos) hpos hnext (hb.lively _ (hs.holds_of_mem hmaker))
        fun level hmem ys hx hpos hle => ?_
      have hfront : level.orders = [] ++ maker :: ys := hx
      exact hb.sub_isOk hs hmem hfront hpos hle hcap
    · obtain ⟨hs, hb, hlive⟩ := h
      obtain ⟨_, _, _, _, _, hdeal⟩ := hstep.deal hs
      rcases hdeal.used_up_or_whole with hz | hwhole
      · exact absurd hpos (Int.not_lt.mpr (Int.le_of_eq hz))
      · refine ⟨(hdeal.worn hs).sound, (hdeal.solvent hb).2 ?_, fun hpos₁ => ?_⟩
        · rw [Order.fill_used_up_iff hdeal.maker_fill, hwhole]
          exact Decimal.SameValue.refl _
        · exact (Order.Filled.fill .none hdeal.incoming_fill).isLive (hlive hstep.left) hpos₁
  obtain ⟨fills, e', hrun⟩ := hrun
  obtain ⟨moments, hm, rfl, -⟩ := trades_of_priceTime hrun hs
  exact ⟨moments, e', hm, hrun⟩

end Encounter

namespace MatchingRule

/-- A rule that makes whole trades in a `Solvent` book: it lets them stand and tells of them, or it
breaks off after them. -/
def Whole (rule : MatchingRule) : Prop :=
  ∀ (call : Nat) (credit : Int) (e : Encounter), e.book.Sound → e.book.Solvent credit →
    e.incoming.status.isLive = true → credit ≤ greatestAtoms →
    ∃ moments e', Encounter.Trades e moments e' ∧
      (rule.run call e = .ok (moments.map Prod.snd) e' ∨ ∃ f, rule.run call e = .error f e')

theorem Conduct.failAfter_run (report : Order → Violation) (e : Encounter) :
    (Conduct.failAfter report).run e =
      match Encounter.priceTime e with
      | .error f e' => .error f e'
      | .ok _ e' => .error (.violation (report e'.incoming)) e' := by
  change (Encounter.priceTime >>= fun _ => _) e = _
  rw [Attempt.run_bind]
  cases Encounter.priceTime e <;> rfl

theorem fills_scripted (name : String) (script : Nat → Conduct) :
    (MatchingRule.scripted name script).Fills := by
  intro call e hs
  have hprice := fills_priceTime call e hs
  have hstandard : MatchingRule.priceTime.run call e = Encounter.priceTime e := rfl
  have hconduct : (MatchingRule.scripted name script).run call e = (script call).run e := rfl
  rw [hstandard] at hprice
  rw [hconduct]
  cases script call with
  | priceTime => exact hprice
  | idle => exact ⟨[], .none, rfl⟩
  | failBefore report => exact .refl hs
  | failAfter report =>
      rw [Conduct.failAfter_run]
      cases hrun : Encounter.priceTime e with
      | error f e' =>
          rw [hrun] at hprice
          exact hprice
      | ok fills e' =>
          rw [hrun] at hprice
          obtain ⟨moments, hm, -⟩ := hprice
          exact hm.worn hs

theorem whole_scripted (name : String) (script : Nat → Conduct) :
    (MatchingRule.scripted name script).Whole := by
  intro call credit e hs hb hlive hcap
  obtain ⟨moments, e', hm, hrun⟩ := Encounter.priceTime_of_solvent hs hb hlive hcap
  change ∃ moments e', Encounter.Trades e moments e' ∧
    ((script call).run e = .ok (moments.map Prod.snd) e' ∨ ∃ f, (script call).run e = .error f e')
  cases script call with
  | priceTime => exact ⟨moments, e', hm, Or.inl hrun⟩
  | idle => exact ⟨[], e, .none, Or.inl rfl⟩
  | failBefore report => exact ⟨[], e, .none, Or.inr ⟨_, rfl⟩⟩
  | failAfter report =>
      refine ⟨moments, e', hm, Or.inr ⟨.violation (report e'.incoming), ?_⟩⟩
      rw [Conduct.failAfter_run, hrun]

end MatchingRule

end Bourse
