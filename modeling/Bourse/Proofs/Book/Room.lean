import Bourse.Proofs.Book.Solvent

/-!
# Books with room

A `Solvent` book may still be so full that a sum overflows. In a `Roomy` one the sums of
the levels and the quantities of the orders are bounded from above as well, and then the
arithmetic objects to nothing that a book is asked to do: every operation is done, or
declined by a rule, and what it does is told exactly. Each operation leaves a little less
room, by what it brings in and by what its sums may be rounded.
-/

namespace Bourse

open Decimal (halfUnit greatestAtoms)

namespace Book

/-- The sums fall short by no more than a `credit`, and neither they nor the quantities of the
orders are more than `most`. -/
structure Roomy (credit most : Int) (b : Book) : Prop where
  solvent : b.Solvent credit
  nonneg : 0 ≤ most
  total_le : ∀ side, ∀ level ∈ (b.ladder side).levels, level.total.atoms ≤ most
  sized : ∀ o, b.Holds o → o.Sized
  quantity_le : ∀ o, b.Holds o → o.quantity.atoms ≤ most

theorem roomy_empty (symbol : String) : (Book.empty symbol).Roomy 0 0 where
  solvent := solvent_empty symbol (Int.le_refl _)
  nonneg := Int.le_refl _
  total_le side level hl := by cases side <;> cases hl
  sized o ho := by
    unfold Holds at ho
    cases hs : o.side <;> rw [hs] at ho <;> cases ho
  quantity_le o ho := by
    unfold Holds at ho
    cases hs : o.side <;> rw [hs] at ho <;> cases ho

namespace Roomy

variable {credit credit' most most' size : Int} {b b' : Book} {side : Side} {old new : List Level}
  {level : Level} {post : List Level} {o o' : Order} {ys : List Order} {q : Quantity}

theorem mono (h : b.Roomy credit most) (hc : credit ≤ credit') (hm : most ≤ most') :
    b.Roomy credit' most' where
  solvent := h.solvent.mono hc
  nonneg := Int.le_trans h.nonneg hm
  total_le side level hl := Int.le_trans (h.total_le side level hl) hm
  sized := h.sized
  quantity_le o ho := Int.le_trans (h.quantity_le o ho) hm

theorem of_exchanged (h : b.Roomy credit most) (hx : Exchanged side old new b b')
    (hsolvent : b'.Solvent credit') (hm : most ≤ most')
    (hnew : ∀ level ∈ new, level.total.atoms ≤ most')
    (horders : ∀ o, b'.Holds o → b.Holds o ∨ (o.Sized ∧ o.quantity.atoms ≤ most')) :
    b'.Roomy credit' most' where
  solvent := hsolvent
  nonneg := Int.le_trans h.nonneg hm
  total_le s level hl := by
    by_cases hs : s = side
    · subst hs
      rcases hx.here.mem hl with hl | hl
      · exact Int.le_trans (h.total_le s level hl) hm
      · exact hnew level hl
    · rw [hx.ladder_of_ne hs] at hl
      exact Int.le_trans (h.total_le s level hl) hm
  sized o ho := by
    rcases horders o ho with hb | ⟨hsized, -⟩
    · exact h.sized o hb
    · exact hsized
  quantity_le o ho := by
    rcases horders o ho with hb | ⟨-, hle⟩
    · exact Int.le_trans (h.quantity_le o hb) hm
    · exact hle

/-- Who rests can be taken out. -/
theorem take (h : b.Roomy credit most) (hs : b.Sound) (ho : b.Holds o)
    (hcap : credit ≤ greatestAtoms) :
    ∃ b', take o.id b = .ok (some o) b' ∧ Departed o b b' ∧ b'.Roomy credit most := by
  obtain ⟨level, hl, xs, ys, hx, htake⟩ := take_cases hs ho
  have hpos : 0 < o.remaining := (h.solvent.lively o ho).2
  obtain ⟨total, htotal⟩ := h.solvent.sub_isOk hs hl hx hpos (Int.le_refl _) hcap
  rw [htotal] at htake
  obtain ⟨b', hx', hdep, hrun⟩ := htake
  have hsolvent := h.solvent.take hs ho
  rw [hrun] at hsolvent
  refine ⟨b', hrun, hdep, h.of_exchanged hx' hsolvent (Int.le_refl _) (fun l hm => ?_)
    fun x hm => Or.inl ((hdep.holds_iff x).mp hm).1⟩
  rw [(Level.mem_kept.mp hm).1]
  exact Int.le_trans (Decimal.sub_le htotal (Int.le_of_lt hpos)) (h.total_le o.side level hl)

/-- Who is `Insertable` is let in, and nobody else. -/
theorem insert (h : b.Roomy credit most) (hs : b.Sound) (hlive : o.status.isLive = true)
    (hle : o.remaining ≤ o.quantity) (hsize : o.quantity.atoms ≤ size) (hnonneg : 0 ≤ size)
    (hcap : credit ≤ greatestAtoms ∧ most + size ≤ greatestAtoms) :
    (b.Insertable o ∧ ∃ b', insert o b = .ok ⟨⟩ b' ∧ Arrived o b b' ∧
        b'.Roomy (credit + 2 * halfUnit) (most + size + halfUnit)) ∨
      (¬ b.Insertable o ∧ ∃ v b', insert o b = .error (.violation v) b' ∧ Kept b b' ∧
        b'.Roomy (credit + 2 * halfUnit) (most + size + halfUnit)) := by
  have hmost := h.nonneg
  have hle : o.remaining.atoms ≤ o.quantity.atoms := hle
  have hkept : b.Roomy (credit + 2 * halfUnit) (most + size + halfUnit) :=
    h.mono (by omega) (by omega)
  have hsolvent := h.solvent.insert hs hlive
  have hins := inserted hs o
  generalize Book.insert o b = result at hins hsolvent
  cases hins with
  | @refused v hrefused => exact Or.inr ⟨hrefused, v, b, rfl, ⟨hs, fun x => Iff.rfl⟩, hkept⟩
  | @opened price b' _ _ _ hspent _ hopen =>
      refine Or.inr ⟨fun hok => Int.not_lt.mpr hspent hok.pos, _, b', rfl, hopen.kept hs, ?_⟩
      refine h.of_exchanged hopen.toExchanged hsolvent (by omega) (fun l hm => ?_)
        fun x hm => Or.inl (((hopen.kept hs).holds_iff x).mp hm)
      have hzero : (Level.empty price).total.atoms = 0 := Decimal.atoms_zero
      rw [List.mem_singleton.mp hm, hzero]
      omega
  | @overflowed level hpos hl hnone =>
      have hpos : (0 : Int) < o.remaining.atoms := hpos
      have hbelow := h.total_le o.side level hl
      have habove := h.solvent.neg_le_total hs hl
      obtain ⟨total, htotal⟩ := Decimal.add?_isSome (a := level.total) (b := o.remaining)
        (by omega) (by omega)
      rw [hnone] at htotal
      cases htotal
  | @put old level total xs ys b' hok hold htotal hx hx' harr =>
      have hpos : (0 : Int) < o.remaining.atoms := hok.pos
      have hbefore : level.total.atoms ≤ most := by
        rcases hold with ⟨-, hl⟩ | ⟨-, hzero, -⟩
        · exact h.total_le o.side level hl
        · rw [hzero, Decimal.atoms_zero]
          exact hmost
      have hoff := (Decimal.add?_off htotal).1
      refine Or.inl ⟨hok, b', rfl, harr, h.of_exchanged hx' hsolvent (by omega) (fun l hm => ?_)
        fun x hm => ?_⟩
      · rw [List.mem_singleton.mp hm]
        show total.atoms ≤ _
        omega
      · rcases (harr.holds_iff x).mp hm with rfl | hm
        · exact Or.inr ⟨⟨Int.le_of_lt hpos, hle⟩, by omega⟩
        · exact Or.inl hm

/-- The first in line is filled if `Order.fill` itself allows it. -/
theorem fillBest (h : b.Roomy credit most) (hs : b.Sound)
    (hl : (b.ladder side).levels = level :: post) (hx : level.orders = o :: ys) (q : Quantity)
    (hcap : credit ≤ greatestAtoms) :
    match o.fill q with
    | .error _ => ∃ v, fillBest side q b = .error (.violation v) b
    | .ok o' => ∃ b', fillBest side q b = .ok o' b' ∧
        (if o'.remaining.SameValue 0 then Departed o b b' else Rewritten o o' b b') ∧
        b'.Roomy (credit + 2 * halfUnit) most := by
  have hfill := fillBest_cases hs hl hx q
  cases hf : o.fill q with
  | error f =>
      obtain ⟨v, rfl⟩ := Order.fill_error hf
      rw [hf] at hfill
      exact ⟨v, hfill⟩
  | ok o' =>
      have hmem : level ∈ (b.ladder side).levels := by rw [hl]; exact List.mem_cons_self
      have hheld : b.Holds o := hs.holds_of_mem
        (List.mem_flatMap.mpr ⟨level, hmem, by rw [hx]; exact List.mem_cons_self⟩)
      obtain ⟨hpos, hle, -, -⟩ := Order.fill_eq_ok hf
      have hfront : level.orders = [] ++ o :: ys := hx
      obtain ⟨total, htotal⟩ := h.solvent.sub_isOk hs hmem hfront hpos hle hcap
      have htotal_le : total.atoms ≤ most :=
        Int.le_trans (Decimal.sub_le htotal (Int.le_of_lt hpos)) (h.total_le side level hmem)
      rw [hf] at hfill
      dsimp only at hfill ⊢
      rw [htotal] at hfill
      dsimp only [orFault] at hfill
      split at hfill
      · next hz =>
          obtain ⟨total', b', hta, hx', hdep, hrun⟩ := hfill
          have hlively : b'.Lively := fun x hm => h.solvent.lively x ((hdep.holds_iff x).mp hm).1
          have hsolvent := (h.solvent.fill hmem hx hf htotal hlively
            (by rw [if_pos hz]; exact ⟨total', hta, hx'⟩)).1
          refine ⟨b', hrun, by rw [if_pos hz]; exact hdep,
            h.of_exchanged hx' hsolvent (Int.le_refl _) (fun l hm => ?_)
              fun x hm => Or.inl ((hdep.holds_iff x).mp hm).1⟩
          rw [(Level.mem_kept.mp hm).1]
          show total'.atoms ≤ most
          omega
      · next hz =>
          obtain ⟨b', hx', hw, hrun⟩ := hfill
          have hleft : (0 : Int) ≤ o'.remaining.atoms := Order.fill_remaining_nonneg hf
          have hne : ¬ o'.remaining.atoms = 0 := hz
          have hlively : b'.Lively := by
            intro x hm
            rcases (hw.holds_iff x).mp hm with rfl | ⟨hm, -⟩
            · refine ⟨?_, (by omega : (0 : Int) < x.remaining.atoms)⟩
              rw [Order.fill_status hf, if_neg hz]
              rfl
            · exact h.solvent.lively x hm
          have hsolvent := (h.solvent.fill hmem hx hf htotal hlively
            (by rw [if_neg hz]; exact hx')).1
          refine ⟨b', hrun, by rw [if_neg hz]; exact hw,
            h.of_exchanged hx' hsolvent (Int.le_refl _) (fun l hm => ?_) fun x hm => ?_⟩
          · rw [List.mem_singleton.mp hm]
            exact htotal_le
          · rcases (hw.holds_iff x).mp hm with rfl | ⟨hm, -⟩
            · refine Or.inr ⟨(Order.Filled.fill .none hf).sized (h.sized o hheld), ?_⟩
              rw [Order.fill_quantity hf]
              exact h.quantity_le o hheld
            · exact Or.inl hm

/-- Who rests can be lessened. -/
theorem reduce (h : b.Roomy credit most) (hs : b.Sound) (ho : b.Holds o) (hpos : 0 < q)
    (hle : q ≤ o.remaining)
    (hcap : credit ≤ greatestAtoms ∧ most + halfUnit ≤ greatestAtoms) :
    ∃ o' b', reduce o.id q b = .ok o' b' ∧ Order.setRemaining q o = .ok ⟨⟩ o' ∧
      Rewritten o o' b b' ∧ b'.Roomy (credit + 2 * halfUnit) (most + 2 * halfUnit) := by
  obtain ⟨level, hl, xs, ys, hx, hred⟩ := reduce_cases hs ho q
  have hnot : ¬ (q ≤ 0 ∨ o.remaining < q) := by
    rintro (hnone | hmore)
    · exact Int.not_lt.mpr hnone hpos
    · exact Int.not_lt.mpr hle hmore
  have hquantity := h.quantity_le o ho
  have hleft : 0 < o.remaining := (h.solvent.lively o ho).2
  obtain ⟨o', hset, hgrown⟩ :=
    Order.setRemaining_isOk (h.sized o ho) (Int.le_of_lt hpos) hle (by omega)
  obtain ⟨without, hwithout⟩ := h.solvent.sub_isOk hs hl hx hleft (Int.le_refl _) hcap.1
  have hoff := Decimal.sub_off hwithout
  have hbelow := h.total_le o.side level hl
  obtain ⟨-, hbefore, hbehind⟩ := h.solvent.around_nonneg hs hl hx
  have hstake := h.solvent.stake_le o.side level hl
  rw [hx, stake_append, stake_cons] at hstake
  have hq : (0 : Int) < q.atoms := hpos
  have hq_le : q.atoms ≤ o.remaining.atoms := hle
  obtain ⟨total, htotal⟩ := Decimal.add?_isSome (a := without) (b := q) (by omega) (by omega)
  have hoff' := (Decimal.add?_off htotal).1
  have hsolvent := h.solvent.reduce hs ho q
  rw [if_neg hnot, hset] at hred
  dsimp only at hred
  rw [hwithout] at hred
  dsimp only [orFault] at hred
  rw [Decimal.add_eq_ok.mpr htotal] at hred
  obtain ⟨b', hx', hw, hrun⟩ := hred
  rw [hrun] at hsolvent
  refine ⟨o', b', hrun, hset, hw, h.of_exchanged hx' hsolvent (by omega) (fun l hm => ?_)
    fun x hm => ?_⟩
  · rw [List.mem_singleton.mp hm]
    show total.atoms ≤ _
    omega
  · rcases (hw.holds_iff x).mp hm with rfl | ⟨hm, -⟩
    · exact Or.inr ⟨Order.setRemaining_sized hset (h.sized o ho) (Int.le_of_lt hpos), by omega⟩
    · exact Or.inl hm

end Roomy

end Book

end Bourse
