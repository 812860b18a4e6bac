import Bourse.Proofs.Matching
import Bourse.Proofs.Book.Balance

/-!
# Bids below asks

A book is `Apart` when every resting bid is priced below every resting ask. What matching
and cancelling do keeps it so (`Apart.worn`, `Apart.rewritten`), since no price ever
changes in its place and nothing comes in. An order comes in only after its matching, and
as long as something is left of it the matching has stopped (`Encounter.Stops`) because
the best price across does not suit it. No level is empty, so that price is the price of
an order, and those behind it suit it even less: the order can rest.
-/

namespace Bourse

namespace Book

/-- Every bid that rests is below every ask that rests. -/
def Apart (b : Book) : Prop :=
  ∀ o o' p p', b.Holds o → b.Holds o' → o.side = .buy → o'.side = .sell →
    o.price = some p → o'.price = some p' → p < p'

theorem apart_empty (symbol : String) : (Book.empty symbol).Apart := by
  intro o o' p p' ho
  unfold Holds at ho
  cases hs : o.side <;> rw [hs] at ho <;> cases ho

section Apart

variable {b b' : Book} {o : Order}

/-- A book is `Apart` if each of its orders has stood there before, at the same price. -/
theorem Apart.of_same (h : b.Apart) (hfrom : ∀ x, b'.Holds x → ∃ o, b.Holds o ∧ o.Same x) :
    b'.Apart := by
  intro x x' p p' hx hx' hside hside' hp hp'
  obtain ⟨o, ho, hsame⟩ := hfrom x hx
  obtain ⟨o', ho', hsame'⟩ := hfrom x' hx'
  exact h o o' p p' ho ho' (hsame.side_eq.symm.trans hside) (hsame'.side_eq.symm.trans hside')
    (hsame.price_eq.symm.trans hp) (hsame'.price_eq.symm.trans hp')

theorem Apart.worn (h : b.Apart) (hw : Worn b b') : b'.Apart :=
  h.of_same fun x hx =>
    have ⟨o, ho, hf⟩ := hw.from_fills x hx
    ⟨o, ho, hf.same⟩

theorem Apart.rewritten (h : b.Apart) {o' : Order} (hw : Rewritten o o' b b') (ho : b.Holds o)
    (hsame : o.Same o') : b'.Apart := by
  refine h.of_same fun x hx => ?_
  rcases (hw.holds_iff x).mp hx with rfl | ⟨hx, -⟩
  · exact ⟨o, ho, hsame⟩
  · exact ⟨x, hx, Order.Same.refl x⟩

/-- An order may come in that `Crosses` no price across. -/
theorem Apart.arrived (h : b.Apart) (harr : Arrived o b b')
    (hcross : ∀ x ∈ (b.ladder o.side.opposite).orders, ∀ p, x.price = some p → ¬ o.Crosses p) :
    b'.Apart := by
  intro x x' p p' hx hx' hside hside' hp hp'
  rcases (harr.holds_iff x).mp hx with rfl | hx
  · rcases (harr.holds_iff x').mp hx' with rfl | hx'
    · rw [hside] at hside'
      cases hside'
    · have hmem : x' ∈ (b.ladder x.side.opposite).orders := by
        rw [hside]
        change x' ∈ (b.ladder .sell).orders
        exact hside' ▸ hx'
      have hnot := hcross x' hmem p' hp'
      unfold Order.Crosses at hnot
      rw [hside, hp] at hnot
      exact Int.not_le.mp hnot
  · rcases (harr.holds_iff x').mp hx' with rfl | hx'
    · have hmem : x ∈ (b.ladder x'.side.opposite).orders := by
        rw [hside']
        change x ∈ (b.ladder .buy).orders
        exact hside ▸ hx
      have hnot := hcross x hmem p hp
      unfold Order.Crosses at hnot
      rw [hside', hp'] at hnot
      exact Int.not_le.mp hnot
    · exact h x x' p p' hx hx' hside hside' hp hp'

/-- `bestPrice?` is the price of an order that rests on the side. -/
theorem Sound.bestPrice?_real (h : b.Sound) (hp : b.Packed) (side : Side) {price : Price}
    (hbest : (b.ladder side).bestPrice? = some price) :
    ∃ o p, b.Holds o ∧ o.side = side ∧ o.price = some p ∧ p.SameValue price := by
  unfold Ladder.bestPrice? Ladder.best? at hbest
  cases hl : (b.ladder side).levels with
  | nil => rw [hl] at hbest; cases hbest
  | cons level post =>
      rw [hl] at hbest
      cases hbest
      cases hx : level.orders with
      | nil => exact absurd hx (hp side level (by rw [hl]; exact List.mem_cons_self))
      | cons o ys =>
          have hmem : o ∈ level.orders := by rw [hx]; exact List.mem_cons_self
          have hfront : (b.ladder side).levels = [] ++ level :: post := hl
          have hlevel := (h.ladder side).at hfront
          obtain ⟨p, hprice, hv⟩ := (hlevel.placed o hmem).price_eq
          have ho : o ∈ (b.ladder side).orders := by
            rw [Ladder.orders, hl]
            exact List.mem_append_left _ hmem
          exact ⟨o, p, h.holds_of_mem ho, h.side_of_mem ho, hprice, hv⟩

theorem Apart.best_lt (h : b.Apart) (hs : b.Sound) (hp : b.Packed) {bid ask : Price}
    (hbid : b.bestBid? = some bid) (hask : b.bestAsk? = some ask) : bid < ask := by
  obtain ⟨o, p, ho, hside, hprice, hv⟩ := hs.bestPrice?_real hp .buy hbid
  obtain ⟨o', p', ho', hside', hprice', hv'⟩ := hs.bestPrice?_real hp .sell hask
  have hlt : p.atoms < p'.atoms :=
    h o o' p p' ho ho' hside hside' hprice hprice'
  have hv : p.atoms = bid.atoms := hv
  have hv' : p'.atoms = ask.atoms := hv'
  change bid.atoms < ask.atoms
  omega

theorem Apart.isCrossed_eq (h : b.Apart) (hs : b.Sound) (hp : b.Packed) : b.isCrossed = false := by
  unfold isCrossed
  cases hbid : b.bestBid? with
  | none => rfl
  | some bid =>
      cases hask : b.bestAsk? with
      | none => rfl
      | some ask =>
          have hlt : bid.atoms < ask.atoms := h.best_lt hs hp hbid hask
          exact decide_eq_false (Int.not_le.mpr hlt)

end Apart

end Book

namespace Encounter

variable {e : Encounter}

/-- If something is left of an order after its matching, it `Crosses` no price across. -/
theorem Stops.not_crosses (h : e.Stops) (hs : e.book.Sound) (hp : e.book.Packed)
    (hleft : 0 < e.incoming.remaining) :
    ∀ x ∈ e.across.orders, ∀ p, x.price = some p → ¬ e.incoming.Crosses p := by
  rcases h with hz | hnone
  · exact absurd hleft (Int.not_lt.mpr hz)
  · intro x hx p hprice hcross
    cases hl : e.across.levels with
    | nil =>
        rw [Ladder.orders, hl] at hx
        cases hx
    | cons level post =>
        cases hy : level.orders with
        | nil =>
            have hlevel : level ∈ e.across.levels := by rw [hl]; exact List.mem_cons_self
            exact absurd hy (hp _ level hlevel)
        | cons maker ys =>
            refine hnone level.price maker
              (nextMaker?_eq_some.mpr ⟨level, post, ys, hl, rfl, hy⟩) ?_
            -- The best price suits whoever is suited by a price behind it.
            have hsound := hs.ladder e.incoming.side.opposite
            obtain ⟨level', hl', hx'⟩ := List.mem_flatMap.mp hx
            obtain ⟨p', hp', hv⟩ := ((hsound.sound level' hl').placed x hx').price_eq
            rw [hprice] at hp'
            cases hp'
            refine (hcross.congr hv).of_rank_le ?_
            have hline := hsound.inLine
            change Ladder.InLine _ e.across.levels at hline
            change level' ∈ e.across.levels at hl'
            rw [hl] at hline hl'
            rcases List.mem_cons.mp hl' with rfl | hl'
            · exact Int.le_refl _
            · have hlt := (List.pairwise_cons.mp hline).1 level' hl'
              rw [hs.side_eq] at hlt
              exact Int.le_of_lt hlt

end Encounter

end Bourse
