import Bourse.Proofs.Book.Likeness
import Bourse.Proofs.Matching

/-!
# What is alike is matched alike

A fill asks of an order what is left of it and whether it is live, and leaves orders alike
that were. So at the same book two orders that are alike in a `Likeness` make the same
fills, one after another, and leave the same book behind.
-/

namespace Bourse

variable {L : Likeness}

theorem Order.fill_like {o o' o₁ : Order} {q : Quantity} (h : L.Alike o o')
    (hrun : o.fill q = .ok o₁) : ∃ o₂, o'.fill q = .ok o₂ ∧ L.Alike o₁ o₂ := by
  have hkin := L.kin h
  obtain ⟨hpos, hle, hlive, r, hr, rfl⟩ := fill_eq_ok hrun
  refine ⟨{ o' with remaining := r, status := o.statusAfter q }, ?_, L.stand h r _⟩
  have hpart : ¬ (q ≤ 0 ∨ o'.remaining < q) := by
    rw [hkin.remaining_eq]
    rintro (hq | hq)
    · exact Int.not_lt.mpr hq hpos
    · exact Int.not_lt.mpr hle hq
  have hstatus : o'.statusAfter q = o.statusAfter q := by
    unfold statusAfter
    rw [hkin.remaining_eq]
  rw [fill_eq, if_neg hpart, hkin.live_eq, if_pos hlive, hkin.remaining_eq, hr, hstatus]
  rfl

namespace Encounter

variable {e e' : Encounter} {x : Order}

theorem trade_like {price : Price} {maker : Order} {fill : Fill} (h : L.Alike e.incoming x)
    (hrun : trade price maker e = .ok fill e') :
    ∃ x', trade price maker ⟨x, e.book⟩ = .ok fill ⟨x', e'.book⟩ ∧ L.Alike e'.incoming x' := by
  have hkin := L.kin h
  have hdealt : (⟨x, e.book⟩ : Encounter).dealt maker = e.dealt maker := by
    unfold dealt
    rw [hkin.remaining_eq]
  rw [trade_run] at hrun ⊢
  rw [hdealt, hkin.side_eq]
  split at hrun
  · cases hrun
  · next maker' b hfill =>
      split at hrun
      · cases hrun
      · next incoming hincoming =>
          cases hrun
          obtain ⟨x', hx', halike⟩ := Order.fill_like h hincoming
          dsimp only
          rw [hfill]
          dsimp only
          rw [hx']
          exact ⟨x', rfl, halike⟩

theorem tradeUpTo_like {n : Nat} {fills : List Fill} (h : L.Alike e.incoming x)
    (hrun : tradeUpTo n e = .ok fills e') :
    ∃ x', tradeUpTo n ⟨x, e.book⟩ = .ok fills ⟨x', e'.book⟩ ∧ L.Alike e'.incoming x' := by
  induction n generalizing e x fills with
  | zero =>
      cases hrun
      exact ⟨x, rfl, h⟩
  | succ n ih =>
      have hkin := L.kin h
      have hnext : (⟨x, e.book⟩ : Encounter).nextMaker? = e.nextMaker? := by
        unfold nextMaker?
        rw [hkin.side_eq]
      have hcrosses (price : Price) : x.Crosses price ↔ e.incoming.Crosses price := by
        unfold Order.Crosses
        rw [hkin.side_eq, hkin.price_eq]
      rw [tradeUpTo_run] at hrun ⊢
      rw [hnext, hkin.remaining_eq]
      split at hrun
      · next hdone =>
          cases hrun
          rw [if_pos hdone]
          exact ⟨x, rfl, h⟩
      · next hdone =>
          rw [if_neg hdone]
          split at hrun
          · cases hrun
            exact ⟨x, rfl, h⟩
          · next price maker _ =>
              split at hrun
              · next hcross =>
                  rw [if_pos ((hcrosses price).mpr hcross)]
                  split at hrun
                  · cases hrun
                  · next fill e₁ htrade =>
                      split at hrun
                      · cases hrun
                      · next rest e₂ hrest =>
                          cases hrun
                          obtain ⟨x₁, hx₁, h₁⟩ := trade_like h htrade
                          obtain ⟨x₂, hx₂, h₂⟩ := ih h₁ hrest
                          rw [hx₁]
                          dsimp only
                          rw [hx₂]
                          exact ⟨x₂, rfl, h₂⟩
              · next hcross =>
                  cases hrun
                  rw [if_neg (mt (hcrosses price).mp hcross)]
                  exact ⟨x, rfl, h⟩

/-- `priceTime` lets orders that are alike make the same fills. -/
theorem priceTime_like {fills : List Fill} (h : L.Alike e.incoming x)
    (hrun : priceTime e = .ok fills e') :
    ∃ x', priceTime ⟨x, e.book⟩ = .ok fills ⟨x', e'.book⟩ ∧ L.Alike e'.incoming x' := by
  have hacross : (⟨x, e.book⟩ : Encounter).across = e.across := by
    unfold across
    rw [(L.kin h).side_eq]
  rw [priceTime_run] at hrun ⊢
  rw [hacross]
  exact tradeUpTo_like h hrun

end Encounter

end Bourse
