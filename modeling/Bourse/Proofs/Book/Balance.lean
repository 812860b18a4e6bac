import Bourse.Proofs.Book.Operations

/-!
# Sums that are nearly right

A level keeps the sum of what is left of its orders, and sums of decimals may be rounded.
`Balanced` bounds what that can come to: no side holds more than `bound`, no level's sum
is off by more than `off` (`Level.Close`), and `count` orders at most stand on a side.
Every operation keeps a book balanced with bounds that are a little larger, and as long as
these are within the range of the decimals it does come to its end. All of them come down
to `Balanced.exchanged`. The same statements serve for exact sums, where `off` stays zero.
-/

namespace Bourse

/-- What is left of some orders, taken together, in `atoms`. -/
def left : List Order → Int
  | [] => 0
  | o :: rest => o.remaining.atoms + left rest

@[simp] theorem left_nil : left [] = 0 := rfl

@[simp] theorem left_cons (o : Order) (rest : List Order) :
    left (o :: rest) = o.remaining.atoms + left rest := rfl

@[simp] theorem left_append (xs ys : List Order) : left (xs ++ ys) = left xs + left ys := by
  induction xs with
  | nil => simp
  | cons o rest ih =>
      rw [List.cons_append, left_cons, left_cons, ih]
      omega

theorem left_nonneg {orders : List Order} (h : ∀ o ∈ orders, 0 ≤ o.remaining.atoms) :
    0 ≤ left orders := by
  induction orders with
  | nil => exact Int.le_refl _
  | cons o rest ih =>
      have ho := h o List.mem_cons_self
      have hrest := ih fun x hx => h x (List.mem_cons_of_mem _ hx)
      rw [left_cons]
      omega

/-- An order of the size and shape that a `Precision` can work with. -/
structure Order.Fit (p : Decimal.Precision) (most : Int) (o : Order) : Prop where
  live : o.status.isLive = true
  pos : 0 < o.remaining.atoms
  le : o.remaining.atoms ≤ o.quantity.atoms
  le_most : o.quantity.atoms ≤ most
  grid_remaining : p.grid ∣ o.remaining.atoms
  grid_quantity : p.grid ∣ o.quantity.atoms

namespace Order.Fit

variable {p : Decimal.Precision} {most : Int} {o o' : Order} {q : Quantity}

theorem sized (h : o.Fit p most) : o.Sized := ⟨Int.le_of_lt h.pos, h.le⟩

theorem mono (h : o.Fit p most) {most' : Int} (hm : most ≤ most') : o.Fit p most' :=
  { h with le_most := Int.le_trans h.le_most hm }

/-- A fill takes what it takes, to within the `slack`, and what is left fits again. -/
theorem fill (h : o.Fit p most) (hm : most ≤ p.cap) (hq : p.grid ∣ q.atoms)
    (hf : o.fill q = .ok o') :
    o'.remaining.atoms ≤ o.remaining.atoms - q.atoms + p.slack ∧
      o.remaining.atoms - q.atoms ≤ o'.remaining.atoms + p.slack ∧
      (¬ o'.remaining.SameValue 0 → o'.Fit p most) := by
  have hnonneg : (0 : Int) ≤ o'.remaining.atoms := fill_remaining_nonneg hf
  have hle : o'.remaining.atoms ≤ o.remaining.atoms := fill_remaining_le hf
  have hstatus := fill_status hf
  have hquantity := fill_quantity hf
  obtain ⟨hpos, hqle, -, r, hr, hr'⟩ := fill_eq_ok hf
  have hpos : (0 : Int) < q.atoms := hpos
  have hqle : q.atoms ≤ o.remaining.atoms := hqle
  have hbound := h.le
  have hmost := h.le_most
  obtain ⟨c, hc, hgrid, hup, hlo⟩ := p.sub_of_le h.grid_remaining hq (by omega) (by omega)
  rw [hr] at hc
  cases hc
  have hrem : o'.remaining = r := by rw [hr']
  refine ⟨by rw [hrem]; exact hup, by rw [hrem]; exact hlo, fun hne => ?_⟩
  have hne' : ¬ o'.remaining.atoms = 0 := hne
  refine ⟨?_, by omega, by rw [hquantity]; omega, by rw [hquantity]; exact hmost,
    by rw [hrem]; exact hgrid, by rw [hquantity]; exact h.grid_quantity⟩
  rw [hstatus, if_neg hne]
  rfl

/-- `setRemaining` replaces what is left of an order, and the quantity follows. -/
theorem setRemaining (h : o.Fit p most) (hpos : 0 < q.atoms) (hq : p.grid ∣ q.atoms)
    (hm : most + q.atoms + p.slack ≤ p.cap) :
    ∃ o', Order.setRemaining q o = .ok ⟨⟩ o' ∧
      o'.Fit p (most + q.atoms + 2 * p.slack) ∧ o'.remaining = q := by
  have hbound := h.le
  have hmost := h.le_most
  have hleft := h.pos
  obtain ⟨f, hf, hfgrid, hfup, hflo⟩ :=
    p.sub_of_le h.grid_quantity h.grid_remaining (by omega) (by omega)
  have hfilled : o.filled = .ok f := filled_eq_ok.mpr hf
  have hnonneg : (0 : Int) ≤ f.atoms := filled_nonneg h.sized hfilled
  obtain ⟨quantity, hsum, hgrid, hup, hlo⟩ := p.add_of_le hfgrid hq (by omega) (by omega)
  refine ⟨{ o with remaining := q, quantity }, ?_, ?_, rfl⟩
  · rw [setRemaining_run, hfilled]
    dsimp only
    rw [hsum]
    rfl
  · refine ⟨h.live, hpos, ?_, ?_, hq, hgrid⟩
    · exact Decimal.le_add? (y := q) (Decimal.add_eq_ok.mp hsum) (by omega)
    · change quantity.atoms ≤ _
      omega

end Order.Fit

/-- The `total` of a level is off by so much at most. -/
structure Level.Close (p : Decimal.Precision) (off : Int) (l : Level) : Prop where
  grid : p.grid ∣ l.total.atoms
  le : l.total.atoms ≤ left l.orders + off
  ge : left l.orders ≤ l.total.atoms + off

/-- Nothing adds up to nothing. -/
theorem Level.close_empty (p : Decimal.Precision) (price : Price) {off : Int} (h : 0 ≤ off) :
    (Level.empty price).Close p off where
  grid := by
    change p.grid ∣ (0 : Decimal).atoms
    rw [Decimal.atoms_zero]
    exact Int.dvd_zero _
  le := by
    change (0 : Decimal).atoms ≤ 0 + off
    rw [Decimal.atoms_zero]
    omega
  ge := by
    change 0 ≤ (0 : Decimal).atoms + off
    rw [Decimal.atoms_zero]
    omega

namespace Book

/-- No level is without orders. -/
def Packed (b : Book) : Prop := ∀ side, ∀ level ∈ (b.ladder side).levels, level.orders ≠ []

/-- A book whose sums are nearly right. -/
structure Balanced (p : Decimal.Precision) (bound off : Int) (count : Nat) (b : Book) :
    Prop where
  packed : b.Packed
  close : ∀ side, ∀ level ∈ (b.ladder side).levels, level.Close p off
  left_le : ∀ side, left (b.ladder side).orders ≤ bound
  count_le : ∀ side, (b.ladder side).orders.length ≤ count
  fit : ∀ o, b.Holds o → o.Fit p (bound + off)

theorem balanced_empty (p : Decimal.Precision) (symbol : String) :
    (Book.empty symbol).Balanced p 0 0 0 where
  packed side level h := by cases side <;> cases h
  close side level h := by cases side <;> cases h
  left_le side := by cases side <;> exact Int.le_refl _
  count_le side := by cases side <;> exact Nat.le_refl _
  fit o h := by
    unfold Holds at h
    cases hs : o.side <;> rw [hs] at h <;> cases h

section Balanced

variable {p : Decimal.Precision} {bound bound' off off' : Int} {count count' : Nat} {b b' : Book}
  {side : Side} {old new : List Level} {level : Level} {o : Order} {xs ys : List Order}

theorem Balanced.mono (h : b.Balanced p bound off count) (hb : bound ≤ bound') (ho : off ≤ off')
    (hc : count ≤ count') : b.Balanced p bound' off' count' where
  packed := h.packed
  close side level hl :=
    have hcl := h.close side level hl
    ⟨hcl.grid, by have := hcl.le; omega, by have := hcl.ge; omega⟩
  left_le side := Int.le_trans (h.left_le side) hb
  count_le side := Nat.le_trans (h.count_le side) hc
  fit x hx := (h.fit x hx).mono (by omega)

/-- What is left at a level is part of what is left on its side. -/
theorem Balanced.level_left_le (h : b.Balanced p bound off count) (hs : b.Sound)
    (hl : level ∈ (b.ladder side).levels) : left level.orders ≤ bound := by
  obtain ⟨pre, post, hsplit⟩ := List.append_of_mem hl
  have hpos (ls : List Level) (hsub : ∀ x ∈ ls, x ∈ (b.ladder side).levels) :
      0 ≤ left (ls.flatMap Level.orders) := by
    refine left_nonneg fun x hx => ?_
    obtain ⟨l, hl, hx⟩ := List.mem_flatMap.mp hx
    have hmem : x ∈ (b.ladder side).orders := List.mem_flatMap.mpr ⟨l, hsub l hl, hx⟩
    exact Int.le_of_lt (h.fit x (hs.holds_of_mem hmem)).pos
  have hpre := hpos pre fun x hx => by rw [hsplit]; exact List.mem_append_left _ hx
  have hpost := hpos post fun x hx => by
    rw [hsplit]
    exact List.mem_append_right _ (List.mem_cons_of_mem _ hx)
  have hall := h.left_le side
  rw [Ladder.orders, hsplit, List.flatMap_append, List.flatMap_cons, left_append,
    left_append] at hall
  omega

theorem Balanced.rest_nonneg (h : b.Balanced p bound off count) (hs : b.Sound)
    (hl : level ∈ (b.ladder side).levels) (hx : level.orders = xs ++ o :: ys) :
    0 ≤ left (xs ++ ys) := by
  refine left_nonneg fun x hm => ?_
  have hmem : x ∈ (b.ladder side).orders := by
    refine List.mem_flatMap.mpr ⟨level, hl, ?_⟩
    rw [hx]
    rcases List.mem_append.mp hm with hm | hm
    · exact List.mem_append_left _ hm
    · exact List.mem_append_right _ (List.mem_cons_of_mem _ hm)
  exact Int.le_of_lt (h.fit x (hs.holds_of_mem hmem)).pos

theorem Packed.exchanged (h : b.Packed) (hx : Exchanged side old new b b')
    (hnew : ∀ level ∈ new, level.orders ≠ []) : b'.Packed := by
  intro s level hl
  by_cases hs : s = side
  · subst hs
    rcases hx.here.mem hl with hl | hl
    · exact h s level hl
    · exact hnew level hl
  · exact h s level (hx.ladder_of_ne hs ▸ hl)

/-- A book stays balanced when the levels that come in are close and hold no more than is
allowed for. -/
theorem Balanced.exchanged (h : b.Balanced p bound off count) (hx : Exchanged side old new b b')
    (hb : bound ≤ bound') (ho : off ≤ off') (hc : count ≤ count')
    (hnew : ∀ level ∈ new, level.orders ≠ [] ∧ level.Close p off')
    (hleft : left (new.flatMap Level.orders) + bound ≤
      left (old.flatMap Level.orders) + bound')
    (hcount : (new.flatMap Level.orders).length + count ≤
      (old.flatMap Level.orders).length + count')
    (hfit : ∀ o, b'.Holds o → o.Fit p (bound' + off')) :
    b'.Balanced p bound' off' count' := by
  have hmono := h.mono hb ho hc
  have hside (s : Side) : s = side ∨ b'.ladder s = b.ladder s := by
    by_cases hs : s = side
    · exact Or.inl hs
    · exact Or.inr (hx.ladder_of_ne hs)
  obtain ⟨front, back, hbefore, hafter⟩ := hx.here.orders
  refine ⟨h.packed.exchanged hx fun level hl => (hnew level hl).1, fun s level hl => ?_,
    fun s => ?_, fun s => ?_, hfit⟩
  · rcases hside s with rfl | hs
    · rcases hx.here.mem hl with hl | hl
      · exact hmono.close _ level hl
      · exact (hnew level hl).2
    · exact hmono.close s level (hs ▸ hl)
  · rcases hside s with rfl | hs
    · have hle := h.left_le s
      rw [hbefore] at hle
      rw [hafter]
      simp only [left_append] at hle ⊢
      omega
    · rw [hs]
      exact hmono.left_le s
  · rcases hside s with rfl | hs
    · have hle := h.count_le s
      rw [hbefore] at hle
      rw [hafter]
      simp only [List.length_append] at hle ⊢
      omega
    · rw [hs]
      exact hmono.count_le s

/-- `Book.take` comes to its end, and the sums stay nearly right. -/
theorem Balanced.take (h : b.Balanced p bound off count) (hs : b.Sound) (ho : b.Holds o)
    (hcap : bound + off ≤ p.cap) :
    ∃ b', take o.id b = .ok (some o) b' ∧ Departed o b b' ∧
      b'.Balanced p bound (off + p.slack) count := by
  obtain ⟨level, hl, xs, ys, hx, htake⟩ := take_cases hs ho
  have hclose := h.close o.side level hl
  have hfit := h.fit o ho
  have hle := hclose.le
  have hge := hclose.ge
  have hbound := h.level_left_le hs hl
  have hrest := h.rest_nonneg hs hl hx
  rw [hx] at hle hge hbound
  simp only [left_append, left_cons] at hle hge hbound hrest
  have hpos := hfit.pos
  obtain ⟨total, htotal, hgrid, hup, hlo⟩ :=
    p.sub_of_le hclose.grid hfit.grid_remaining (by omega) (by omega)
  rw [htotal] at htake
  obtain ⟨b', hx', hdep, hrun⟩ := htake
  refine ⟨b', hrun, hdep, h.exchanged hx' (Int.le_refl _) (by omega) (Nat.le_refl _)
    (fun l hl => ?_) ?_ ?_ fun x hm => ?_⟩
  · obtain ⟨rfl, hne⟩ := Level.mem_kept.mp hl
    refine ⟨hne, hgrid, ?_, ?_⟩
    · change total.atoms ≤ left (xs ++ ys) + _
      rw [left_append]
      omega
    · change left (xs ++ ys) ≤ total.atoms + _
      rw [left_append]
      omega
  · rw [Level.kept_orders, List.flatMap_singleton, hx]
    simp only [left_append, left_cons]
    omega
  · rw [Level.kept_orders, List.flatMap_singleton, hx]
    simp only [List.length_append, List.length_cons]
    omega
  · exact (h.fit x ((hdep.holds_iff x).mp hm).1).mono (by omega)

/-- An order that is `Fit` is let in, and the bounds grow by what it brings. -/
theorem Balanced.insert (h : b.Balanced p bound off count) (hs : b.Sound)
    (hfit : o.Fit p (bound + o.remaining.atoms + off)) (htype : o.orderType = .limit)
    {price : Price} (hprice : o.price = some price) (hfree : ¬ b.Has o.id)
    (hseq : ∀ x ∈ (b.ladder o.side).orders, x.sequence ≠ o.sequence)
    (hnonneg : 0 ≤ bound ∧ 0 ≤ off) (hcap : bound + o.remaining.atoms + off ≤ p.cap) :
    ∃ b', insert o b = .ok ⟨⟩ b' ∧ Arrived o b b' ∧
      b'.Balanced p (bound + o.remaining.atoms) (off + p.slack) (count + 1) := by
  obtain ⟨old, level, hold, hins⟩ := insert_cases hs htype hprice hfit.pos hfree hseq
  have hpos := hfit.pos
  have hlevel : level.Close p off ∧ left level.orders ≤ bound ∧ 0 ≤ left level.orders ∧
      old.flatMap Level.orders = level.orders := by
    rcases hold with ⟨rfl, hl, -⟩ | ⟨rfl, rfl⟩
    · refine ⟨h.close o.side level hl, h.level_left_le hs hl, left_nonneg fun x hx => ?_,
        List.flatMap_singleton ..⟩
      have hmem : x ∈ (b.ladder o.side).orders := List.mem_flatMap.mpr ⟨level, hl, hx⟩
      exact Int.le_of_lt (h.fit x (hs.holds_of_mem hmem)).pos
    · exact ⟨Level.close_empty p price hnonneg.2, hnonneg.1, Int.le_refl _, rfl⟩
  obtain ⟨hclose, hbound, hrest, hfrom⟩ := hlevel
  have hle := hclose.le
  have hge := hclose.ge
  obtain ⟨total, htotal, hgrid, hup, hlo⟩ :=
    p.add?_of_le hclose.grid hfit.grid_remaining (by omega) (by omega)
  rw [htotal] at hins
  obtain ⟨xs, ys, b', hx, hx', harr, hrun⟩ := hins
  rw [hx, left_append] at hle hge
  refine ⟨b', hrun, harr, h.exchanged hx' (by omega) (by omega) (Nat.le_succ _)
    (fun l hl => ?_) ?_ ?_ fun x hm => ?_⟩
  · rw [List.mem_singleton.mp hl]
    refine ⟨by simp, hgrid, ?_, ?_⟩
    · change total.atoms ≤ left (xs ++ o :: ys) + _
      rw [left_append, left_cons]
      omega
    · change left (xs ++ o :: ys) ≤ total.atoms + _
      rw [left_append, left_cons]
      omega
  · rw [hfrom, hx, List.flatMap_singleton]
    simp only [left_append, left_cons]
    omega
  · rw [hfrom, hx, List.flatMap_singleton]
    simp only [List.length_append, List.length_cons]
    omega
  · rcases (harr.holds_iff x).mp hm with rfl | hm
    · exact hfit.mono (by omega)
    · exact (h.fit x hm).mono (by omega)

/-- An order can be lessened in its place by `Book.reduce`. -/
theorem Balanced.reduce (h : b.Balanced p bound off count) (hs : b.Sound) (ho : b.Holds o)
    {q : Quantity} (hq : 0 < q.atoms) (hqle : q.atoms ≤ o.remaining.atoms)
    (hgrid : p.grid ∣ q.atoms) (hcap : bound + q.atoms + off + 2 * p.slack ≤ p.cap) :
    ∃ o' b', reduce o.id q b = .ok o' b' ∧ Order.setRemaining q o = .ok ⟨⟩ o' ∧
      Rewritten o o' b b' ∧ b'.Balanced p (bound + q.atoms) (off + 2 * p.slack) count := by
  obtain ⟨level, hl, xs, ys, hx, hred⟩ := reduce_cases hs ho q
  have hnot : ¬ (q ≤ 0 ∨ o.remaining < q) := by
    rintro (hle | hlt)
    · exact Int.not_lt.mpr hle hq
    · exact Int.not_lt.mpr hqle hlt
  have hfit := h.fit o ho
  obtain ⟨o', hset, hfit', hrem⟩ := hfit.setRemaining hq hgrid (by omega)
  have hclose := h.close o.side level hl
  have hle := hclose.le
  have hge := hclose.ge
  have hbound := h.level_left_le hs hl
  have hrest := h.rest_nonneg hs hl hx
  rw [hx] at hle hge hbound
  simp only [left_append, left_cons] at hle hge hbound hrest
  have hpos := hfit.pos
  obtain ⟨without, hwithout, hgrid₁, hup₁, hlo₁⟩ :=
    p.sub_of_le hclose.grid hfit.grid_remaining (by omega) (by omega)
  obtain ⟨total, htotal, hgrid₂, hup₂, hlo₂⟩ :=
    p.add_of_le hgrid₁ hgrid (by omega) (by omega)
  rw [if_neg hnot, hset] at hred
  dsimp only at hred
  rw [hwithout] at hred
  dsimp only [orFault] at hred
  rw [htotal] at hred
  obtain ⟨b', hx', hrew, hrun⟩ := hred
  refine ⟨o', b', hrun, hset, hrew, h.exchanged hx' (by omega) (by omega) (Nat.le_refl _)
    (fun l hl => ?_) ?_ ?_ fun x hm => ?_⟩
  · rw [List.mem_singleton.mp hl]
    refine ⟨by simp, hgrid₂, ?_, ?_⟩
    · change total.atoms ≤ left (xs ++ o' :: ys) + _
      rw [left_append, left_cons, hrem]
      omega
    · change left (xs ++ o' :: ys) ≤ total.atoms + _
      rw [left_append, left_cons, hrem]
      omega
  · rw [List.flatMap_singleton, List.flatMap_singleton, hx]
    simp only [left_append, left_cons, hrem]
    omega
  · rw [List.flatMap_singleton, List.flatMap_singleton, hx]
    simp only [List.length_append, List.length_cons]
    omega
  · rcases (hrew.holds_iff x).mp hm with rfl | ⟨hm, -⟩
    · exact hfit'.mono (by omega)
    · exact (h.fit x hm).mono (by omega)

end Balanced

end Book

end Bourse
