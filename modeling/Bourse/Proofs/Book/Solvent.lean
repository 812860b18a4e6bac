import Bourse.Proofs.Decimal.Sums
import Bourse.Proofs.Book.Insertion

/-!
# Sums that never run short

A level's sum may fall short of what is left of its orders, since each sum that is rounded
can lose half a unit. If it fell short by too much, a trade could break off between the
fill of the maker and the new sum, and leave an order in the book of which nothing is
left.

How often a sum has been rounded is no good measure of that: one call may trade with any
number of orders. So every order is charged a `halfUnit` when it comes, and that pays for
the rounding when it goes; what is left of the orders and these charges are their `stake`.
What is then owed for are the orders that come, are lessened, or are filled in part, and
of these a call makes few. `Solvent` says that what is owed is within a `credit`. It is
kept in every outcome, and unlike `Balanced` it asks nothing of the size of the orders and
lets the book be crossed.
-/

namespace Bourse

open Decimal (halfUnit greatestAtoms)

/-- What is left of some orders, and a `halfUnit` for each of them. -/
def stake : List Order → Int
  | [] => 0
  | o :: rest => o.remaining.atoms + halfUnit + stake rest

@[simp] theorem stake_nil : stake [] = 0 := rfl

@[simp] theorem stake_cons (o : Order) (rest : List Order) :
    stake (o :: rest) = o.remaining.atoms + halfUnit + stake rest := rfl

@[simp] theorem stake_append (xs ys : List Order) : stake (xs ++ ys) = stake xs + stake ys := by
  induction xs with
  | nil => simp
  | cons o rest ih =>
      rw [List.cons_append, stake_cons, stake_cons, ih]
      omega

theorem stake_nonneg {orders : List Order} (h : ∀ o ∈ orders, 0 < o.remaining) :
    0 ≤ stake orders := by
  induction orders with
  | nil => exact Int.le_refl _
  | cons o rest ih =>
      have ho : (0 : Int) < o.remaining.atoms := h o List.mem_cons_self
      have hrest := ih fun x hx => h x (List.mem_cons_of_mem _ hx)
      rw [stake_cons]
      omega

namespace Book

/-- Every order can still trade, and no level's sum falls short of its `stake` by more than a
`credit`. -/
structure Solvent (credit : Int) (b : Book) : Prop where
  lively : b.Lively
  nonneg : 0 ≤ credit
  stake_le : ∀ side, ∀ level ∈ (b.ladder side).levels,
    stake level.orders ≤ level.total.atoms + credit

theorem solvent_empty (symbol : String) {credit : Int} (h : 0 ≤ credit) :
    (Book.empty symbol).Solvent credit where
  lively o ho := by
    unfold Holds at ho
    cases hs : o.side <;> rw [hs] at ho <;> cases ho
  nonneg := h
  stake_le side level hl := by cases side <;> cases hl

namespace Solvent

variable {credit credit' : Int} {b b' : Book} {side : Side} {old new : List Level} {level : Level}
  {o : Order} {xs ys : List Order} {q : Quantity}

theorem mono (h : b.Solvent credit) (hle : credit ≤ credit') : b.Solvent credit' where
  lively := h.lively
  nonneg := Int.le_trans h.nonneg hle
  stake_le side level hl := by
    have hlevel := h.stake_le side level hl
    omega

theorem of_exchanged (h : b.Solvent credit) (hx : Exchanged side old new b b')
    (hlively : b'.Lively) (hle : credit ≤ credit')
    (hnew : ∀ level ∈ new, stake level.orders ≤ level.total.atoms + credit') :
    b'.Solvent credit' where
  lively := hlively
  nonneg := Int.le_trans h.nonneg hle
  stake_le s level hl := by
    by_cases hs : s = side
    · subst hs
      rcases hx.here.mem hl with hl | hl
      · exact (h.mono hle).stake_le s level hl
      · exact hnew level hl
    · rw [hx.ladder_of_ne hs] at hl
      exact (h.mono hle).stake_le s level hl

/-- The orders around one have a stake too. -/
theorem around_nonneg (h : b.Solvent credit) (hs : b.Sound)
    (hl : level ∈ (b.ladder side).levels) (hx : level.orders = xs ++ o :: ys) :
    0 < o.remaining.atoms ∧ 0 ≤ stake xs ∧ 0 ≤ stake ys := by
  have hpos (x : Order) (hm : x ∈ level.orders) : 0 < x.remaining :=
    (h.lively x (hs.holds_of_mem (List.mem_flatMap.mpr ⟨level, hl, hm⟩))).2
  rw [hx] at hpos
  refine ⟨hpos o (by simp), stake_nonneg fun x hm => hpos x ?_, stake_nonneg fun x hm => hpos x ?_⟩
  · simp [hm]
  · simp [hm]

/-- No sum is below what is owed. -/
theorem neg_le_total (h : b.Solvent credit) (hs : b.Sound)
    (hl : level ∈ (b.ladder side).levels) : -credit ≤ level.total.atoms := by
  have hnonneg : 0 ≤ stake level.orders := stake_nonneg fun x hm =>
    (h.lively x (hs.holds_of_mem (List.mem_flatMap.mpr ⟨level, hl, hm⟩))).2
  have hstake := h.stake_le side level hl
  omega

/-- A level's sum is large enough for any part of any of its orders to be taken from it, so `sub`
comes to its end. -/
theorem sub_isOk (h : b.Solvent credit) (hs : b.Sound) (hl : level ∈ (b.ladder side).levels)
    (hx : level.orders = xs ++ o :: ys) (hpos : 0 < q) (hle : q ≤ o.remaining)
    (hcap : credit ≤ greatestAtoms) : ∃ total, level.total.sub q = .ok total := by
  have hpos : (0 : Int) < q.atoms := hpos
  have hle : q.atoms ≤ o.remaining.atoms := hle
  obtain ⟨-, hbefore, hbehind⟩ := h.around_nonneg hs hl hx
  have hstake := h.stake_le side level hl
  rw [hx, stake_append, stake_cons] at hstake
  have hbounds := (Decimal.representable_atoms level.total).bounds
  obtain ⟨total, htotal⟩ := Decimal.add?_isSome (a := level.total) (b := -q)
    (by rw [Decimal.atoms_neg]; omega) (by rw [Decimal.atoms_neg]; omega)
  exact ⟨total, Decimal.sub_eq_ok.mpr htotal⟩

/-- Who is taken out by `take` has paid for it. -/
theorem take (h : b.Solvent credit) (hs : b.Sound) (ho : b.Holds o) :
    match take o.id b with
    | .error _ b' | .ok _ b' => b'.Solvent credit := by
  obtain ⟨level, hl, xs, ys, hx, htake⟩ := take_cases hs ho
  obtain ⟨hpos, hbefore, hbehind⟩ := h.around_nonneg hs hl hx
  have hstake := h.stake_le o.side level hl
  rw [hx, stake_append, stake_cons] at hstake
  have hlively {b' : Book} (hdep : Departed o b b') : b'.Lively :=
    fun x hm => h.lively x ((hdep.holds_iff x).mp hm).1
  cases htotal : level.total.sub o.remaining with
  | error err =>
      rw [htotal] at htake
      obtain ⟨b', hx', hdep, hrun⟩ := htake
      rw [hrun]
      refine h.of_exchanged hx' (hlively hdep) (Int.le_refl _) fun l hm => ?_
      rw [List.mem_singleton.mp hm]
      show stake (xs ++ ys) ≤ level.total.atoms + credit
      rw [stake_append]
      omega
  | ok total =>
      rw [htotal] at htake
      obtain ⟨b', hx', hdep, hrun⟩ := htake
      have hoff := (Decimal.sub_off htotal).2
      rw [hrun]
      refine h.of_exchanged hx' (hlively hdep) (Int.le_refl _) fun l hm => ?_
      rw [(Level.mem_kept.mp hm).1]
      show stake (xs ++ ys) ≤ total.atoms + credit
      rw [stake_append]
      omega

/-- Who comes by `insert` is charged for going again, and its coming may be rounded. -/
theorem insert (h : b.Solvent credit) (hs : b.Sound) (hlive : o.status.isLive = true) :
    match insert o b with
    | .error _ b' | .ok _ b' => b'.Solvent (credit + 2 * halfUnit) := by
  have hins := inserted hs o
  generalize Book.insert o b = result at hins
  cases hins with
  | refused _ => exact h.mono (by omega)
  | overflowed _ _ _ => exact h.mono (by omega)
  | @opened price b' _ _ _ _ _ hopen =>
      refine h.of_exchanged hopen.toExchanged
        (fun x hm => h.lively x (((hopen.kept hs).holds_iff x).mp hm)) (by omega) fun l hm => ?_
      have hnonneg := h.nonneg
      have hzero : (Level.empty price).total.atoms = 0 := Decimal.atoms_zero
      rw [List.mem_singleton.mp hm, hzero, show stake (Level.empty price).orders = 0 from rfl]
      omega
  | @put old level total xs ys b' hok hold htotal hx hx' harr =>
      have hstake : stake level.orders ≤ level.total.atoms + credit := by
        rcases hold with ⟨-, hl⟩ | ⟨-, hzero, hnone⟩
        · exact h.stake_le o.side level hl
        · rw [hzero, Decimal.atoms_zero, hnone, stake_nil, Int.zero_add]
          exact h.nonneg
      have hoff := (Decimal.add?_off htotal).2
      rw [hx, stake_append] at hstake
      refine h.of_exchanged hx' (fun x hm => ?_) (by omega) fun l hm => ?_
      · rcases (harr.holds_iff x).mp hm with rfl | hm
        · exact ⟨hlive, hok.pos⟩
        · exact h.lively x hm
      · rw [List.mem_singleton.mp hm]
        show stake (xs ++ o :: ys) ≤ total.atoms + _
        rw [stake_append, stake_cons]
        omega

/-- Who is filled and used up has paid for going; any other fill may be rounded, and so may the sum
of the level. -/
theorem fill (h : b.Solvent credit) (hl : level ∈ (b.ladder side).levels)
    (hx : level.orders = o :: ys) {o' : Order} (hf : o.fill q = .ok o') {total : Quantity}
    (ht : level.total.sub q = .ok total) (hlively : b'.Lively)
    (hbook : if o'.remaining.SameValue 0 then
        ∃ total', total'.atoms = total.atoms ∧
          Exchanged side [level] (Level.kept ⟨level.price, ys, total'⟩) b b'
      else Exchanged side [level] [⟨level.price, o' :: ys, total⟩] b b') :
    b'.Solvent (credit + 2 * halfUnit) ∧ (o'.remaining.SameValue 0 → b'.Solvent credit) := by
  have hstake := h.stake_le side level hl
  have hoff := (Decimal.sub_off ht).2
  rw [hx, stake_cons] at hstake
  split at hbook
  · next hz =>
      obtain ⟨total', htotal, hx'⟩ := hbook
      have hq : q.atoms = o.remaining.atoms := (Order.fill_used_up_iff hf).mp hz
      have hsolvent : b'.Solvent credit := by
        refine h.of_exchanged hx' hlively (Int.le_refl _) fun l hm => ?_
        rw [(Level.mem_kept.mp hm).1]
        show stake ys ≤ total'.atoms + credit
        omega
      exact ⟨hsolvent.mono (by omega), fun _ => hsolvent⟩
  · next hz =>
      obtain ⟨-, -, -, r, hr, ho'⟩ := Order.fill_eq_ok hf
      have hleft := (Decimal.sub_off hr).1
      have hremaining : o'.remaining = r := by rw [ho']
      refine ⟨h.of_exchanged hbook hlively (by omega) fun l hm => ?_, fun hused => absurd hused hz⟩
      rw [List.mem_singleton.mp hm]
      show stake (o' :: ys) ≤ total.atoms + _
      rw [stake_cons, hremaining]
      omega

/-- An order can be rewritten if its level's sum keeps up with it but for two roundings. -/
theorem rewrite (h : b.Solvent credit) (ho : b.Holds o) (hl : level ∈ (b.ladder o.side).levels)
    (hx : level.orders = xs ++ o :: ys) {o' : Order} (hstatus : o'.status = o.status)
    (hpos : 0 < o'.remaining) {total : Quantity}
    (hx' : Exchanged o.side [level] [⟨level.price, xs ++ o' :: ys, total⟩] b b')
    (hw : Rewritten o o' b b')
    (htotal : o'.remaining.atoms + level.total.atoms ≤
      o.remaining.atoms + total.atoms + 2 * halfUnit) : b'.Solvent (credit + 2 * halfUnit) := by
  have hstake := h.stake_le o.side level hl
  rw [hx, stake_append, stake_cons] at hstake
  refine h.of_exchanged hx' (fun x hm => ?_) (by omega) fun l hm => ?_
  · rcases (hw.holds_iff x).mp hm with rfl | ⟨hm, -⟩
    · exact ⟨hstatus ▸ (h.lively o ho).1, hpos⟩
    · exact h.lively x hm
  · rw [List.mem_singleton.mp hm]
    show stake (xs ++ o' :: ys) ≤ total.atoms + _
    rw [stake_append, stake_cons]
    omega

/-- Who is lessened by `reduce` goes and comes again. -/
theorem reduce (h : b.Solvent credit) (hs : b.Sound) (ho : b.Holds o) (q : Quantity) :
    match reduce o.id q b with
    | .error _ b' | .ok _ b' => b'.Solvent (credit + 2 * halfUnit) := by
  obtain ⟨level, hl, xs, ys, hx, hred⟩ := reduce_cases hs ho q
  by_cases hq : q ≤ 0 ∨ o.remaining < q
  · rw [if_pos hq] at hred
    rw [hred]
    exact h.mono (by omega)
  · rw [if_neg hq] at hred
    -- However the quantity has been replaced, something is left, and no more than before.
    have hlessened {o' : Order} (hset : (Attempt.outcome (Order.setRemaining q) o).2 = o') :
        o'.status = o.status ∧ 0 < o'.remaining ∧ o'.remaining.atoms ≤ o.remaining.atoms := by
      obtain ⟨hstatus, hrem⟩ := Order.setRemaining_outcome q o
      rw [hset] at hstatus hrem
      refine ⟨hstatus, ?_⟩
      rcases hrem with hrem | hrem
      · rw [hrem]
        exact ⟨(h.lively o ho).2, Int.le_refl _⟩
      · rw [hrem]
        exact ⟨Int.not_le.mp fun hle => hq (Or.inl hle), Int.not_lt.mp fun hlt => hq (Or.inr hlt)⟩
    cases hset : Order.setRemaining q o with
    | error f o' =>
        rw [hset] at hred
        obtain ⟨b', hx', hw, hrun⟩ := hred
        obtain ⟨hstatus, hpos, hle⟩ := hlessened (congrArg Prod.snd (Attempt.outcome_error hset))
        rw [hrun]
        exact h.rewrite ho hl hx hstatus hpos hx' hw (by omega)
    | ok _ o' =>
        obtain ⟨hstatus, hpos, hle⟩ := hlessened (congrArg Prod.snd (Attempt.outcome_ok hset))
        rw [hset] at hred
        dsimp only at hred
        cases hwithout : level.total.sub o.remaining with
        | error err =>
            rw [hwithout] at hred
            obtain ⟨b', hx', hw, hrun⟩ := hred
            rw [hrun]
            exact h.rewrite ho hl hx hstatus hpos hx' hw (by omega)
        | ok without =>
            rw [hwithout] at hred
            dsimp only [orFault] at hred
            cases htotal : without.add q with
            | error err =>
                rw [htotal] at hred
                obtain ⟨b', hx', hw, hrun⟩ := hred
                rw [hrun]
                exact h.rewrite ho hl hx hstatus hpos hx' hw (by omega)
            | ok total =>
                rw [htotal] at hred
                obtain ⟨b', hx', hw, hrun⟩ := hred
                have hoff := (Decimal.sub_off hwithout).2
                have hoff' := (Decimal.add?_off (Decimal.add_eq_ok.mp htotal)).2
                obtain ⟨_, _, -, -, rfl⟩ := Order.setRemaining_eq_ok hset
                rw [hrun]
                refine h.rewrite ho hl hx hstatus hpos hx' hw ?_
                show q.atoms + level.total.atoms ≤ _
                omega

end Solvent

end Book

end Bourse
