import Bourse.Proofs.Book.Queue

/-!
# Every insertion

An order that an engine puts into a book is known to be in order. `Book.insert` asks
nothing of the kind: it takes whatever order it is handed and sees for itself whether it
can rest. What comes of that, whatever the order is, is listed by `Inserted`. Either it
arrives, or the book is left alone, or, if it has nothing left and the price is a new one,
a level has been `Opened` for it and stays behind without orders.
-/

namespace Bourse

namespace Book

/-- The order can be let in: it is a limit order with something left of it, its identity does not
rest, and everything in its line stands `Before` it or behind it. -/
structure Insertable (b : Book) (o : Order) : Prop where
  limit : o.orderType = .limit
  priced : o.price.isSome = true
  pos : 0 < o.remaining
  free : ¬ b.Has o.id
  placed : ∀ x ∈ (b.ladder o.side).orders, Order.Before o.side x o ∨ Order.Before o.side o x

/-- A level without orders has been opened, and nothing else has changed. -/
structure Opened (side : Side) (price : Price) (before after : Book) : Prop
    extends Exchanged side [] [.empty price] before after where
  symbol_eq : after.symbol = before.symbol
  index_eq : after.index = before.index

/-- The outcomes of `Book.insert`. -/
inductive Inserted (o : Order) (b : Book) : EStateM.Result Fault Book Unit → Prop
  | refused {v : Violation} : ¬ b.Insertable o → Inserted o b (.error (.violation v) b)
  | opened {price : Price} {b' : Book} : ¬ b.Has o.id → o.orderType = .limit →
      o.price = some price → o.remaining ≤ 0 →
      (∀ level ∈ (b.ladder o.side).levels, ¬ level.price.SameValue price) →
      Opened o.side price b b' → Inserted o b (.error (.violation (.notRestable o.id)) b')
  | overflowed {level : Level} : 0 < o.remaining → level ∈ (b.ladder o.side).levels →
      level.total.add? o.remaining = none →
      Inserted o b (.error (.violation (.quantityOverflow level.price)) b)
  | put {old : List Level} {level : Level} {total : Quantity} {xs ys : List Order} {b' : Book} :
      b.Insertable o →
      ((old = [level] ∧ level ∈ (b.ladder o.side).levels) ∨
        (old = [] ∧ level.total = 0 ∧ level.orders = [])) →
      level.total.add? o.remaining = some total → level.orders = xs ++ ys →
      Exchanged o.side old [⟨level.price, xs ++ o :: ys, total⟩] b b' → Arrived o b b' →
      Inserted o b (.ok ⟨⟩ b')

theorem setLadder_self (b : Book) (side : Side) : b.setLadder (b.ladder side) side = b := by
  cases side <;> rfl

section Insertion

variable {b b' : Book} {o : Order} {price : Price} {side : Side} {level : Level}
  {pre post : List Level}

theorem Opened.kept (ho : Opened side price b b') (h : b.Sound) : Kept b b' := by
  refine h.kept ho.toExchanged rfl ?_ ho.index_eq
  intro level hl
  rw [List.mem_singleton.mp hl]
  exact Level.sound_empty side price

/-- What arrives under a new identity stands before or behind everything in its line. -/
theorem Arrived.placed (ha : Arrived o b b') (h : b.Sound) (hfree : ¬ b.Has o.id) :
    ∀ x ∈ (b.ladder o.side).orders, Order.Before o.side x o ∨ Order.Before o.side o x := by
  have hmem : o ∈ (b'.ladder o.side).orders := (ha.holds_iff o).mpr (Or.inl rfl)
  obtain ⟨xs, ys, hsplit⟩ := List.append_of_mem hmem
  have hline := ha.sound.line o.side
  rw [hsplit] at hline
  obtain ⟨-, hmid, hcross⟩ := List.pairwise_append.mp hline
  intro x hx
  have hheld : b'.Holds x := (ha.holds_iff x).mpr (Or.inr (h.holds_of_mem hx))
  have hx' : x ∈ (b'.ladder o.side).orders := ha.sound.mem_line_iff.mpr ⟨hheld, h.side_of_mem hx⟩
  have hne : x ≠ o := by
    rintro rfl
    exact hfree ⟨x, h.holds_of_mem hx, rfl⟩
  rw [hsplit] at hx'
  rcases List.mem_append.mp hx' with hx' | hx'
  · exact Or.inl (hcross x hx' o List.mem_cons_self)
  · rcases List.mem_cons.mp hx' with rfl | hx'
    · exact absurd rfl hne
    · exact Or.inr ((List.pairwise_cons.mp hmid).1 x hx')

/-- Two orders at one price with one number cannot both stand in a line. -/
theorem not_placed {x o : Order} {p q : Price} (hp : x.price = some p) (hq : o.price = some q)
    (hv : p.SameValue q) (hseq : x.sequence = o.sequence) :
    ¬ (Order.Before side x o ∨ Order.Before side o x) := by
  have hrank := (side.sameValue_iff p q).mp hv
  rintro (⟨p', q', hp', hq', hlt⟩ | ⟨q', p', hq', hp', hlt⟩) <;>
  · rw [hp] at hp'
    rw [hq] at hq'
    cases hp'
    cases hq'
    omega

/-- Where an order belongs on its side: at a level that is there, or at one that is opened. -/
def Spot (b : Book) (side : Side) (price : Price) (pre : List Level) (level : Level)
    (post : List Level) : Prop :=
  (b.ladder side).levels = pre ++ level :: post ∨
    ((b.ladder side).levels = pre ++ post ∧ level = .empty price)

theorem Spot.sound (hspot : Spot b side price pre level post) (h : b.Sound) :
    level.Sound side := by
  rcases hspot with hl | ⟨-, rfl⟩
  · have hlevel := (h.ladder side).at hl
    rw [h.side_eq] at hlevel
    exact hlevel
  · exact Level.sound_empty side price

/-- An order with nothing left is refused, but the level it was meant for has been opened. -/
theorem inserted_spent (hfree : ¬ b.Has o.id) (htype : o.orderType = .limit)
    (hprice : o.price = some price) (hpos : o.remaining ≤ 0)
    (hspot : Spot b o.side price pre level post) (hsame : level.price.SameValue price)
    (hline : Ladder.InLine (b.ladder o.side).side (pre ++ level :: post)) :
    Inserted o b (.error (.violation (.notRestable o.id))
      (b.setLadder { b.ladder o.side with levels := pre ++ level :: post } o.side)) := by
  have hrefused : ¬ b.Insertable o := fun hi => Int.not_lt.mpr hpos hi.pos
  rcases hspot with hl | ⟨hl, rfl⟩
  · rw [← hl]
    exact (setLadder_self b o.side).symm ▸ .refused hrefused
  · refine .opened hfree htype hprice hpos (fun x hx => ?_)
      ⟨exchanged_setLadder ⟨rfl, hline, pre, post, hl, rfl⟩, ?_, index_setLadder ..⟩
    · -- The prices of the levels in front rank below, of those behind above.
      rw [hl] at hx
      obtain ⟨hbefore, hbehind⟩ := hline.around
      rw [(b.ladder o.side).side.sameValue_iff]
      rcases List.mem_append.mp hx with hx | hx
      · have hlt := hbefore x hx
        exact Int.ne_of_lt hlt
      · have hlt := hbehind x hx
        exact Int.ne_of_gt hlt
    · cases o.side <;> rfl

/-- An order whose number is taken at its price is refused. -/
theorem inserted_taken (h : b.Sound) (hprice : o.price = some price)
    (hspot : Spot b o.side price pre level post) (hsame : level.price.SameValue price)
    (htaken : (level.find? o.sequence).isSome = true) :
    Inserted o b (.error (.violation (.duplicateOrderId o.id))
      (b.setLadder { b.ladder o.side with levels := pre ++ level :: post } o.side)) := by
  obtain ⟨x, hx⟩ := Option.isSome_iff_exists.mp htaken
  obtain ⟨hmem, hseq⟩ := Level.mem_of_find? hx
  have hl : (b.ladder o.side).levels = pre ++ level :: post := by
    rcases hspot with hl | ⟨-, rfl⟩
    · exact hl
    · cases hmem
  rw [← hl]
  refine (setLadder_self b o.side).symm ▸ .refused fun hi => ?_
  obtain ⟨p, hp, hv⟩ := ((hspot.sound h).placed x hmem).price_eq
  refine not_placed hp hprice (hv.trans hsame) hseq (hi.placed x ?_)
  exact List.mem_flatMap.mpr ⟨level, by simp [hl], hmem⟩

/-- An order that is in order rests, unless the sum of its level goes out of range. The sum of a
level that is opened does not. -/
theorem inserted_summed (h : b.Sound) (hfree : ¬ b.Has o.id) (htype : o.orderType = .limit)
    (hprice : o.price = some price) (hpos : 0 < o.remaining)
    (hspot : Spot b o.side price pre level post) (hsame : level.price.SameValue price)
    (hline : Ladder.InLine (b.ladder o.side).side (pre ++ level :: post))
    (hnew : ¬ (level.find? o.sequence).isSome = true) :
    Inserted o b
      (match level.total.add? o.remaining with
        | none => .error (.violation (.quantityOverflow level.price))
            (b.setLadder { b.ladder o.side with levels := pre ++ level :: post } o.side)
        | some total => .ok ⟨⟩ { b.setLadder { b.ladder o.side with
              levels := pre ++ { level with
                orders := Level.enqueue o level.orders, total } :: post } o.side with
            index := b.index.insert o.id ⟨o.side, price, o.sequence⟩ }) := by
  have hlevel := hspot.sound h
  cases hsum : level.total.add? o.remaining with
  | none =>
      rcases hspot with hl | ⟨-, rfl⟩
      · dsimp only
        rw [← hl]
        exact (setLadder_self b o.side).symm ▸ .overflowed hpos (by simp [hl]) hsum
      · have hbounds := (Decimal.representable_atoms o.remaining).bounds
        have hzero : (Level.empty price).total.atoms = 0 := Decimal.atoms_zero
        obtain ⟨total, htotal⟩ := Decimal.add?_isSome (a := (Level.empty price).total)
          (b := o.remaining) (by omega) (by omega)
        rw [hsum] at htotal
        cases htotal
  | some total =>
      have hfresh : ∀ x ∈ level.orders, x.sequence ≠ o.sequence := by
        intro x hx hseq
        refine hnew (List.find?_isSome.mpr ⟨x, hx, ?_⟩)
        exact decide_eq_true hseq
      obtain ⟨xs, ys, hsplit, henq, hinline⟩ := hlevel.inLine.enqueue hfresh
      have hstands : o.StandsAt o.side level.price := ⟨rfl, htype, price, hprice, hsame.symm⟩
      obtain ⟨old, hold, hl⟩ : ∃ old, ((old = [level] ∧ level ∈ (b.ladder o.side).levels) ∨
          (old = [] ∧ level.total = 0 ∧ level.orders = [])) ∧
          (b.ladder o.side).levels = pre ++ (old ++ post) := by
        rcases hspot with hl | ⟨hl, rfl⟩
        · exact ⟨[level], Or.inl ⟨rfl, by simp [hl]⟩, hl⟩
        · exact ⟨[], Or.inr ⟨rfl, rfl, rfl⟩, hl⟩
      have hfrom : old.flatMap Level.orders = xs ++ ys := by
        rcases hold with ⟨rfl, -⟩ | ⟨rfl, -, hnone⟩
        · exact (List.flatMap_singleton ..).trans hsplit
        · exact hnone.symm.trans hsplit
      dsimp only
      rw [henq]
      have hladder : Ladder.Exchanged old [⟨level.price, xs ++ o :: ys, total⟩] (b.ladder o.side)
          { b.ladder o.side with levels := pre ++ ⟨level.price, xs ++ o :: ys, total⟩ :: post } :=
        ⟨rfl, hline.rewrite rfl, pre, post, hl, rfl⟩
      have hx := (exchanged_setLadder hladder).index
        (b.index.insert o.id ⟨o.side, price, o.sequence⟩)
      have harr := h.arrived hx hfrom (List.flatMap_singleton ..) (fun l hl => by
        rw [List.mem_singleton.mp hl]
        exact hlevel.enqueue hstands hsplit hinline total)
        (by rw [Order.place?, hprice]; rfl) rfl hfree
      exact .put ⟨htype, by rw [hprice]; rfl, hpos, hfree, harr.placed h hfree⟩ hold hsum hsplit hx
        harr

/-- Every insertion comes to one of the outcomes of `Inserted`. -/
theorem inserted (h : b.Sound) (o : Order) : Inserted o b (insert o b) := by
  rw [insert_run]
  by_cases hcontains : b.contains o.id = true
  · rw [if_pos hcontains]
    exact .refused fun hi => hi.free (h.contains_iff.mp hcontains)
  · rw [if_neg hcontains]
    have hfree : ¬ b.Has o.id := fun hid => hcontains (h.contains_iff.mpr hid)
    cases htype : o.orderType with
    | market =>
        refine .refused fun hi => ?_
        rw [hi.limit] at htype
        cases htype
    | limit =>
        cases hprice : o.price with
        | none =>
            refine .refused fun hi => ?_
            have hpriced := hi.priced
            rw [hprice] at hpriced
            cases hpriced
        | some price =>
            obtain ⟨pre, level, post, hsplit, hsame, hline, hpush⟩ :=
              Ladder.pushAt_run price o (h.ladder o.side).inLine
            dsimp only
            rw [Ladder.push_run, hpush, Level.push_run]
            by_cases hpos : o.remaining ≤ 0
            · rw [if_pos hpos]
              exact inserted_spent hfree htype hprice hpos hsplit hsame hline
            · rw [if_neg hpos]
              have hpos : 0 < o.remaining := Int.not_le.mp hpos
              by_cases htaken : (level.find? o.sequence).isSome = true
              · rw [if_pos htaken]
                exact inserted_taken h hprice hsplit hsame htaken
              · rw [if_neg htaken]
                have hput := inserted_summed h hfree htype hprice hpos hsplit hsame hline htaken
                cases hsum : level.total.add? o.remaining <;> rw [hsum] at hput <;> exact hput

end Insertion

end Book

end Bourse
