import Bourse.Proofs.Matching
import Bourse.Proofs.Book.Balance

/-!
# Matching in a balanced book

In a `Balanced` book no trade breaks off. The incoming order may be of any size and on any
grid: as long as it is the larger it takes orders as a whole, which lie on the grid of the
book, and once it is the smaller it is used up and the matching is over. If it lies on the
grid itself (`Order.Fit`), the book stays balanced, with a slack that grows by the trade
(`Trades.balanced`).
-/

namespace Bourse

namespace Encounter

section Balanced

variable {p : Decimal.Precision} {bound off : Int} {count : Nat} {e e' : Encounter} {fill : Fill}
  {level : Level} {post : List Level} {maker : Order} {ys : List Order} {total : Quantity}
  {moments : List (Encounter × Fill)}

theorem Deal.balanced (h : Deal e fill e' level post maker ys total) (hs : e.book.Sound)
    (hb : e.book.Balanced p bound off count) (hgrid : p.grid ∣ fill.quantity.atoms)
    (hcap : bound + off ≤ p.cap) : e'.book.Balanced p bound (off + 2 * p.slack) count := by
  have hl : level ∈ (e.book.ladder e.incoming.side.opposite).levels := by
    change level ∈ e.across.levels
    rw [h.levels_eq]
    exact List.mem_cons_self
  have hfit := hb.fit maker (h.holds hs)
  have hclose := hb.close _ level hl
  have hle := hclose.le
  have hge := hclose.ge
  have hbound := hb.level_left_le hs hl
  have hfront : level.orders = [] ++ maker :: ys := h.orders_eq
  have hrest := hb.rest_nonneg hs hl hfront
  rw [h.orders_eq] at hle hge hbound
  simp only [List.nil_append, left_cons] at hle hge hbound hrest
  obtain ⟨hpos, hqle, -, -⟩ := Order.fill_eq_ok h.maker_fill
  have hpos : (0 : Int) < fill.quantity.atoms := hpos
  have hqle : fill.quantity.atoms ≤ maker.remaining.atoms := hqle
  obtain ⟨c, htotal, htgrid, htup, htlo⟩ :=
    p.sub_of_le hclose.grid hgrid (by omega) (by omega)
  rw [h.total_eq] at htotal
  cases htotal
  obtain ⟨hup, hlo, hfit'⟩ := hfit.fill hcap hgrid h.maker_fill
  have hgrow : off ≤ off + 2 * p.slack := by omega
  have hbook := h.book
  split at hbook
  · next hz =>
      obtain ⟨total', hta, hx, hdep⟩ := hbook
      have hq : fill.quantity.atoms = maker.remaining.atoms :=
        (Order.fill_used_up_iff h.maker_fill).mp hz
      refine hb.exchanged hx (Int.le_refl _) hgrow (Nat.le_refl _) (fun l hl => ?_) ?_ ?_
        fun x hm => (hb.fit x ((hdep.holds_iff x).mp hm).1).mono (by omega)
      · obtain ⟨rfl, hne⟩ := Level.mem_kept.mp hl
        refine ⟨hne, by rw [hta]; exact htgrid, ?_, ?_⟩
        · change total'.atoms ≤ left ys + _
          omega
        · change left ys ≤ total'.atoms + _
          omega
      · rw [Level.kept_orders, List.flatMap_singleton, h.orders_eq, left_cons]
        dsimp only
        omega
      · rw [Level.kept_orders, List.flatMap_singleton, h.orders_eq, List.length_cons]
        dsimp only
        omega
  · next hz =>
      obtain ⟨hx, hrew⟩ := hbook
      have hless : fill.maker.remaining.atoms ≤ maker.remaining.atoms :=
        Order.fill_remaining_le h.maker_fill
      refine hb.exchanged hx (Int.le_refl _) hgrow (Nat.le_refl _) (fun l hl => ?_) ?_ ?_
        fun x hm => ?_
      · rw [List.mem_singleton.mp hl]
        refine ⟨by simp, htgrid, ?_, ?_⟩
        · change total.atoms ≤ fill.maker.remaining.atoms + left ys + _
          omega
        · change fill.maker.remaining.atoms + left ys ≤ total.atoms + _
          omega
      · rw [List.flatMap_singleton, List.flatMap_singleton, h.orders_eq, left_cons, left_cons]
        omega
      · rw [List.flatMap_singleton, List.flatMap_singleton, h.orders_eq]
        exact Nat.le_refl _
      · rcases (hrew.holds_iff x).mp hm with rfl | ⟨hm, -⟩
        · exact (hfit' hz).mono (by omega)
        · exact (hb.fit x hm).mono (by omega)

/-- The order in line can be traded with. -/
theorem trade_isOk (hs : e.book.Sound) (hb : e.book.Balanced p bound off count)
    (hlive : e.incoming.status.isLive = true) (hleft : 0 < e.incoming.remaining)
    {price : Price} (hnext : e.nextMaker? = some (price, maker)) (hoff : off ≤ p.cap) :
    ∃ fill e', trade price maker e = .ok fill e' := by
  obtain ⟨first, _, _, hl, -, hx⟩ := nextMaker?_eq_some.mp hnext
  have hmaker : maker ∈ e.across.orders := by
    rw [Ladder.orders, hl, List.flatMap_cons, hx]
    exact List.mem_append_left _ List.mem_cons_self
  have hfit := hb.fit maker (hs.holds_of_mem hmaker)
  refine trade_isOk_of_sub hs hlive hleft hnext ⟨hfit.live, hfit.pos⟩
    fun level hmem ys hx hpos hqle => ?_
  -- The sum of the level is above what is `dealt`, but for the slack.
  have hpos : (0 : Int) < (e.dealt maker).atoms := hpos
  have hqle : (e.dealt maker).atoms ≤ maker.remaining.atoms := hqle
  have hfront : level.orders = [] ++ maker :: ys := hx
  have hrest := hb.rest_nonneg hs hmem hfront
  have hge := (hb.close _ level hmem).ge
  rw [hx, left_cons] at hge
  rw [List.nil_append] at hrest
  have hgreatest := (Decimal.representable_atoms level.total).bounds
  have hcap := p.cap_le
  obtain ⟨total, htotal⟩ := Decimal.add?_isSome (a := level.total) (b := -e.dealt maker)
    (by rw [Decimal.atoms_neg]; omega) (by rw [Decimal.atoms_neg]; omega)
  exact ⟨total, Decimal.sub_eq_ok.mpr htotal⟩

/-- `tradeUpTo` comes to its end, whatever the incoming order is. -/
theorem tradeUpTo_isOk {n : Nat} (hs : e.book.Sound) (hb : e.book.Balanced p bound off count)
    (hlive : 0 < e.incoming.remaining → e.incoming.status.isLive = true)
    (hnonneg : 0 ≤ bound) (hcap : bound + off + 2 * (p.slack * n : Nat) ≤ p.cap) :
    ∃ fills e', tradeUpTo n e = .ok fills e' := by
  refine tradeUpTo_isOk_of (P := fun n e => ∃ off : Int, e.book.Sound ∧
      e.book.Balanced p bound off count ∧
      (0 < e.incoming.remaining → e.incoming.status.isLive = true) ∧
      bound + off + 2 * (p.slack * n : Nat) ≤ p.cap)
    (fun h hpos hnext => ?_) (fun h hstep hpos => ?_) ⟨off, hs, hb, hlive, hcap⟩
  · obtain ⟨off, hs, hb, hlive, hcap⟩ := h
    exact trade_isOk hs hb (hlive hpos) hpos hnext (by omega)
  · obtain ⟨off, hs, hb, hlive, hcap⟩ := h
    rw [Nat.mul_succ] at hcap
    obtain ⟨_, _, _, _, _, hdeal⟩ := hstep.deal hs
    rcases hdeal.used_up_or_whole with hz | hwhole
    · exact absurd hpos (Int.not_lt.mpr (Int.le_of_eq hz))
    · have hgrid := (hb.fit _ (hdeal.holds hs)).grid_remaining
      rw [← hwhole] at hgrid
      refine ⟨off + 2 * p.slack, (hdeal.worn hs).sound, hdeal.balanced hs hb hgrid (by omega),
        fun hpos₁ => ?_, by omega⟩
      exact (Order.Filled.fill .none hdeal.incoming_fill).isLive (hlive hstep.left) hpos₁

theorem priceTime_isOk (hs : e.book.Sound) (hb : e.book.Balanced p bound off count)
    (hlive : e.incoming.status.isLive = true) (hnonneg : 0 ≤ bound)
    (hcap : bound + off + 2 * (p.slack * count : Nat) ≤ p.cap) :
    ∃ fills e', priceTime e = .ok fills e' := by
  have hcount := Nat.mul_le_mul_left p.slack (hb.count_le e.incoming.side.opposite)
  rw [priceTime_run]
  refine tradeUpTo_isOk hs hb (fun _ => hlive) hnonneg ?_
  change bound + off + 2 * ((p.slack * (e.book.ladder _).orders.length : Nat) : Int) ≤ _
  omega

/-- Trades of an order on the grid leave the book balanced, and what is left of the order on the
grid. -/
theorem Trades.balanced {most : Int} (h : Trades e moments e') (hs : e.book.Sound)
    (hb : e.book.Balanced p bound off count) (hfit : e.incoming.Fit p most) (hmost : most ≤ p.cap)
    (hcap : bound + off + 2 * (p.slack * moments.length : Nat) ≤ p.cap) :
    e'.book.Balanced p bound (off + 2 * (p.slack * moments.length : Nat)) count ∧
      (e'.incoming.remaining ≤ 0 ∨ e'.incoming.Fit p most) := by
  induction h generalizing off with
  | none => exact ⟨hb.mono (Int.le_refl _) (by omega) (Nat.le_refl _), Or.inr hfit⟩
  | @some e e₁ e' fill rest hstep htail ih =>
      rw [List.length_cons, Nat.mul_succ] at hcap ⊢
      obtain ⟨level, post, maker, ys, total, hdeal⟩ := hstep.deal hs
      have hgrid : p.grid ∣ fill.quantity.atoms := by
        rw [hdeal.quantity_eq, dealt, Decimal.smaller]
        split
        · exact (hb.fit _ (hdeal.holds hs)).grid_remaining
        · exact hfit.grid_remaining
      have hb₁ := hdeal.balanced hs hb hgrid (by omega)
      have hs₁ := (hdeal.worn hs).sound
      by_cases hz : e₁.incoming.remaining.SameValue 0
      · -- An order that is used up trades no more.
        cases htail with
        | none =>
            exact ⟨hb₁.mono (Int.le_refl _) (by omega) (Nat.le_refl _), Or.inl (Int.le_of_eq hz)⟩
        | some hstep' _ => exact absurd hstep'.left (Int.not_lt.mpr (Int.le_of_eq hz))
      · have hfit₁ := (hfit.fill hmost hgrid hdeal.incoming_fill).2.2 hz
        obtain ⟨hb', hleft⟩ := ih hs₁ hb₁ hfit₁ (by omega)
        exact ⟨hb'.mono (Int.le_refl _) (by omega) (Nat.le_refl _), hleft⟩

end Balanced

end Encounter

end Bourse
