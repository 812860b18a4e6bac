import Bourse.Book.Ladder
import Bourse.Proofs.Book.Level

/-!
# Ladders in order

The two sides of a book are mirror images, so prices are ranked here: the price that
trades first ranks lowest, among buyers as among sellers, and every comparison of prices
of a side becomes one of `rank` (`better_iff`, `crosses_some_iff`).

A ladder is `Sound` when its levels stand by the ranks of their prices and each is sound
in itself. Every operation opens, changes or drops one level and leaves those before it
and behind it alone, also when it stops at a fault. `Exchanged` says just that, and what a
book needs to know of its ladders is read off it: that they stay sound, which orders they
hold, and which levels.
-/

namespace Bourse

namespace Side

/-- The place of a price among the prices of a side; what trades first ranks lowest. -/
def rank : Side → Price → Int
  | .buy, p => -p.atoms
  | .sell, p => p.atoms

theorem better_iff (side : Side) (p q : Price) :
    side.Better p q ↔ side.rank p < side.rank q := by
  cases side with
  | buy => exact Int.neg_lt_neg_iff.symm
  | sell => exact Iff.rfl

theorem sameValue_iff (side : Side) (p q : Price) :
    p.SameValue q ↔ side.rank p = side.rank q := by
  cases side with
  | buy => exact Int.neg_inj.symm
  | sell => exact Iff.rfl

/-- A limit is crossed by the prices that have no higher `rank` among those it trades against. -/
theorem crosses_some_iff (side : Side) (limit p : Price) :
    side.Crosses (some limit) p ↔ side.opposite.rank p ≤ side.opposite.rank limit := by
  cases side with
  | buy => exact Iff.rfl
  | sell => exact Int.neg_le_neg_iff.symm

end Side

namespace Order.Crosses

variable {o : Order} {p q : Price}

/-- An order without a limit is suited by every price. -/
theorem of_unpriced (h : o.price = none) (p : Price) : o.Crosses p := by
  rw [Order.Crosses, h]
  cases o.side <;> trivial

/-- An order that `Crosses` a price crosses every better one. -/
theorem of_rank_le (h : o.Crosses p)
    (hle : o.side.opposite.rank q ≤ o.side.opposite.rank p) : o.Crosses q := by
  cases hlimit : o.price with
  | none => exact of_unpriced hlimit q
  | some limit =>
      unfold Order.Crosses at h ⊢
      rw [hlimit, Side.crosses_some_iff] at h
      rw [hlimit]
      exact (Side.crosses_some_iff _ _ _).mpr (Int.le_trans hle h)

/-- Whether an order may trade at a price does not depend on how the price is written. -/
theorem congr (h : o.Crosses p) (hv : p.SameValue q) : o.Crosses q :=
  h.of_rank_le (Int.le_of_eq ((o.side.opposite.sameValue_iff p q).mp hv).symm)

end Order.Crosses

/-- The order is before the other in the line of a side: its price has a lower `rank`, or their
prices are the same number and it arrived earlier. -/
def Order.Before (side : Side) (o o' : Order) : Prop :=
  ∃ p p', o.price = some p ∧ o'.price = some p' ∧
    (side.rank p < side.rank p' ∨ (side.rank p = side.rank p' ∧ o.sequence < o'.sequence))

namespace Ladder

/-- The levels stand by the `rank` of their prices. -/
def InLine (side : Side) (levels : List Level) : Prop :=
  levels.Pairwise fun a b => side.rank a.price < side.rank b.price

/-- Levels `InLine`, each sound. -/
structure Sound (l : Ladder) : Prop where
  inLine : InLine l.side l.levels
  sound : ∀ level ∈ l.levels, level.Sound l.side

theorem sound_empty (side : Side) : (Ladder.empty side).Sound :=
  ⟨List.Pairwise.nil, fun _ h => by cases h⟩

section Place

variable {side : Side} {level level' : Level} {pre post : List Level}

theorem InLine.around (h : InLine side (pre ++ level :: post)) :
    (∀ x ∈ pre, side.rank x.price < side.rank level.price) ∧
      ∀ y ∈ post, side.rank level.price < side.rank y.price := by
  obtain ⟨-, hmid, hcross⟩ := List.pairwise_append.mp h
  exact ⟨fun x hx => hcross x hx level List.mem_cons_self, (List.pairwise_cons.mp hmid).1⟩

theorem InLine.without (h : InLine side (pre ++ level :: post)) : InLine side (pre ++ post) :=
  h.sublist (List.Sublist.append_left (List.sublist_cons_self level post) pre)

theorem InLine.rewrite (h : InLine side (pre ++ level :: post))
    (hp : level'.price = level.price) : InLine side (pre ++ level' :: post) := by
  obtain ⟨hpre, hpost⟩ := h.around
  obtain ⟨hl, hmid, hcross⟩ := List.pairwise_append.mp h
  refine List.pairwise_append.mpr ⟨hl, List.pairwise_cons.mpr ⟨?_, hmid.tail⟩, ?_⟩
  · intro y hy
    rw [hp]
    exact hpost y hy
  · intro x hx y hy
    rcases List.mem_cons.mp hy with rfl | hy
    · rw [hp]
      exact hpre x hx
    · exact hcross x hx y (List.mem_cons_of_mem _ hy)

end Place

theorem Sound.at {l : Ladder} {pre : List Level} {level : Level} {post : List Level}
    (h : l.Sound) (hl : l.levels = pre ++ level :: post) : level.Sound l.side :=
  h.sound level (by rw [hl]; exact List.mem_append_right _ List.mem_cons_self)

theorem Sound.level?_eq {l : Ladder} {price : Price} {level : Level} (h : l.Sound)
    (hl : level ∈ l.levels) (hp : level.price.SameValue price) : l.level? price = some level := by
  obtain ⟨pre, post, hsplit⟩ := List.append_of_mem hl
  have hpre := (hsplit ▸ h.inLine : InLine l.side (pre ++ level :: post)).around.1
  have hrank := (l.side.sameValue_iff _ _).mp hp
  unfold level?
  rw [hsplit, List.find?_append, List.find?_eq_none.mpr, Option.none_or, List.find?_cons_of_pos]
  · exact decide_eq_true hp
  · intro x hx
    have := hpre x hx
    rw [decide_eq_true_eq, l.side.sameValue_iff]
    omega

/-- All orders of a ladder stand in one line. -/
theorem Sound.before {l : Ladder} (h : l.Sound) : l.orders.Pairwise (Order.Before l.side) := by
  unfold orders
  refine List.pairwise_flatMap.mpr ⟨fun level hl => ?_, ?_⟩
  · have hplaced := (h.sound level hl).placed
    refine List.Pairwise.imp_of_mem ?_ (h.sound level hl).inLine
    intro o o' ho ho' hlt
    obtain ⟨p, hp, hv⟩ := (hplaced o ho).price_eq
    obtain ⟨p', hp', hv'⟩ := (hplaced o' ho').price_eq
    refine ⟨p, p', hp, hp', Or.inr ⟨?_, hlt⟩⟩
    rw [(l.side.sameValue_iff _ _).mp hv, (l.side.sameValue_iff _ _).mp hv']
  · refine List.Pairwise.imp_of_mem ?_ h.inLine
    intro level level' hl hl' hlt o ho o' ho'
    obtain ⟨p, hp, hv⟩ := ((h.sound level hl).placed o ho).price_eq
    obtain ⟨p', hp', hv'⟩ := ((h.sound level' hl').placed o' ho').price_eq
    refine ⟨p, p', hp, hp', Or.inl ?_⟩
    rw [(l.side.sameValue_iff _ _).mp hv, (l.side.sameValue_iff _ _).mp hv']
    exact hlt

theorem Sound.standsAt {l : Ladder} (h : l.Sound) {o : Order} (ho : o ∈ l.orders) :
    ∃ price, o.price = some price ∧ o.StandsAt l.side price := by
  obtain ⟨level, hl, ho⟩ := List.mem_flatMap.mp ho
  have hstands := (h.sound level hl).placed o ho
  obtain ⟨p, hp, -⟩ := hstands.price_eq
  exact ⟨p, hp, hstands.side_eq, hstands.orderType_eq, p, hp, rfl⟩

/-! ## What an operation leaves -/

/-- Levels that stood at one place have been exchanged for others, still `InLine`. -/
structure Exchanged (old new : List Level) (before after : Ladder) : Prop where
  side_eq : after.side = before.side
  inLine : InLine before.side after.levels
  place : ∃ pre post, before.levels = pre ++ (old ++ post) ∧ after.levels = pre ++ (new ++ post)

namespace Exchanged

variable {old new : List Level} {before after : Ladder}

theorem mem (h : Exchanged old new before after) {level : Level} (hl : level ∈ after.levels) :
    level ∈ before.levels ∨ level ∈ new := by
  obtain ⟨pre, post, hb, ha⟩ := h.place
  rw [ha] at hl
  rw [hb]
  simp only [List.mem_append] at hl ⊢
  rcases hl with hl | hl | hl
  · exact Or.inl (Or.inl hl)
  · exact Or.inr hl
  · exact Or.inl (Or.inr (Or.inr hl))

theorem sound (h : Exchanged old new before after) (hb : before.Sound)
    (hnew : ∀ level ∈ new, level.Sound before.side) : after.Sound := by
  refine ⟨h.side_eq ▸ h.inLine, fun level hl => ?_⟩
  rw [h.side_eq]
  rcases h.mem hl with hl | hl
  · exact hb.sound level hl
  · exact hnew level hl

theorem orders (h : Exchanged old new before after) :
    ∃ front back, before.orders = front ++ (old.flatMap Level.orders ++ back) ∧
      after.orders = front ++ (new.flatMap Level.orders ++ back) := by
  obtain ⟨pre, post, hb, ha⟩ := h.place
  refine ⟨pre.flatMap Level.orders, post.flatMap Level.orders, ?_, ?_⟩
  · rw [Ladder.orders, hb, List.flatMap_append, List.flatMap_append]
  · rw [Ladder.orders, ha, List.flatMap_append, List.flatMap_append]

theorem rewritten {l : Ladder} (hs : l.Sound) {pre post : List Level} {level : Level}
    (hl : l.levels = pre ++ level :: post) (level' : Level) (hp : level'.price = level.price) :
    Exchanged [level] [level'] l { l with levels := pre ++ level' :: post } where
  side_eq := rfl
  inLine := (hl ▸ hs.inLine : InLine l.side (pre ++ level :: post)).rewrite hp
  place := ⟨pre, post, hl, rfl⟩

theorem dropped {l : Ladder} (hs : l.Sound) {pre post : List Level} {level : Level}
    (hl : l.levels = pre ++ level :: post) :
    Exchanged [level] [] l { l with levels := pre ++ post } where
  side_eq := rfl
  inLine := (hl ▸ hs.inLine : InLine l.side (pre ++ level :: post)).without
  place := ⟨pre, post, hl, rfl⟩

theorem kept {l : Ladder} (hs : l.Sound) {pre post : List Level} {level : Level}
    (hl : l.levels = pre ++ level :: post) (level' : Level) (hp : level'.price = level.price) :
    Exchanged [level] level'.kept l { l with levels := pre ++ (level'.kept ++ post) } := by
  unfold Level.kept
  split
  · exact dropped hs hl
  · exact rewritten hs hl level' hp

end Exchanged

/-! ## The operations -/

/-- `pushAt` pushes an order at the level of its price, or at a new level where that belongs. -/
theorem pushAt_run {side : Side} (price : Price) (order : Order) {levels : List Level}
    (h : InLine side levels) :
    ∃ pre level post,
      (levels = pre ++ level :: post ∨ (levels = pre ++ post ∧ level = .empty price)) ∧
      level.price.SameValue price ∧ InLine side (pre ++ level :: post) ∧
      pushAt side price order levels levels =
        match Level.push order level with
        | .ok a x => .ok a (pre ++ x :: post)
        | .error f x => .error f (pre ++ x :: post) := by
  induction levels with
  | nil =>
      refine ⟨[], .empty price, [], Or.inr ⟨rfl, rfl⟩, rfl, List.pairwise_singleton _ _, ?_⟩
      rw [pushAt, Attempt.run_focus]
      cases Level.push order (.empty price) <;> rfl
  | cons level rest ih =>
      obtain ⟨hlevel, hrest⟩ := List.pairwise_cons.mp h
      by_cases hsame : level.price.SameValue price
      · refine ⟨[], level, rest, Or.inl rfl, hsame, h, ?_⟩
        rw [pushAt, if_pos hsame, Attempt.run_focus]
        cases Level.push order level <;> rfl
      · by_cases hbetter : side.Better price level.price
        · refine ⟨[], .empty price, level :: rest, Or.inr ⟨rfl, rfl⟩, rfl, ?_, ?_⟩
          · have hlt := (side.better_iff _ _).mp hbetter
            refine List.pairwise_cons.mpr ⟨fun y hy => ?_, h⟩
            rcases List.mem_cons.mp hy with rfl | hy
            · exact hlt
            · exact Int.lt_trans hlt (hlevel y hy)
          · rw [pushAt, if_neg hsame, if_pos hbetter, Attempt.run_focus]
            cases Level.push order (.empty price) <;> rfl
        · obtain ⟨pre, spot, post, hsplit, hspot, hline, hrun⟩ := ih hrest
          refine ⟨level :: pre, spot, post, ?_, hspot, ?_, ?_⟩
          · rcases hsplit with hsplit | ⟨hsplit, hnew⟩
            · exact Or.inl (by rw [hsplit, List.cons_append])
            · exact Or.inr ⟨by rw [hsplit, List.cons_append], hnew⟩
          · -- The level in front ranks below the price, and so below all from there on.
            have hfront : side.rank level.price < side.rank spot.price := by
              rw [(side.sameValue_iff _ _).mp hspot]
              have hne := mt (side.sameValue_iff _ _).mpr hsame
              have hnlt := mt (side.better_iff _ _).mpr hbetter
              omega
            refine List.pairwise_cons.mpr ⟨fun y hy => ?_, hline⟩
            rcases List.mem_append.mp hy with hy | hy
            · refine hlevel y ?_
              rcases hsplit with hsplit | ⟨hsplit, -⟩ <;>
                exact hsplit ▸ List.mem_append_left _ hy
            · rcases List.mem_cons.mp hy with rfl | hy
              · exact hfront
              · exact Int.lt_trans hfront (hline.around.2 y hy)
          · rw [pushAt, if_neg hsame, if_neg hbetter, Attempt.run_focus, hrun]
            cases Level.push order spot <;> rfl

theorem atLevel_run {α : Type} {side : Side} {price : Price} (act : Attempt Level (Option α))
    {pre : List Level} {level : Level} {post : List Level}
    (h : InLine side (pre ++ level :: post)) (hp : level.price.SameValue price) :
    atLevel price act (pre ++ level :: post) (pre ++ level :: post) =
      match act level with
      | .ok a x => .ok a (pre ++ x :: post)
      | .error f x => .error f (pre ++ x :: post) := by
  induction pre with
  | nil =>
      rw [List.nil_append, atLevel, if_pos hp, Attempt.run_focus]
      cases act level <;> rfl
  | cons front pre ih =>
      have hlt := (List.pairwise_cons.mp h).1 level (by simp)
      have hne : ¬ front.price.SameValue price := by
        rw [side.sameValue_iff, ← (side.sameValue_iff _ _).mp hp]
        omega
      rw [List.cons_append, atLevel, if_neg hne, Attempt.run_focus,
        ih (List.pairwise_cons.mp h).2]
      cases act level <;> rfl

theorem onLevel_run {α : Type} {price : Price} (act : Attempt Level (Option α)) {l : Ladder}
    {pre : List Level} {level : Level} {post : List Level} (h : l.Sound)
    (hl : l.levels = pre ++ level :: post) (hp : level.price.SameValue price) :
    onLevel price act l =
      match act level with
      | .ok a x => .ok a { l with levels := pre ++ x :: post }
      | .error f x => .error f { l with levels := pre ++ x :: post } := by
  have hrun := atLevel_run act (hl ▸ h.inLine : InLine l.side (pre ++ level :: post)) hp
  unfold onLevel
  rw [Attempt.run_bind, Attempt.run_get]
  dsimp only
  rw [Attempt.run_focus, hl, hrun]
  cases act level <;> rfl

theorem dropIfEmpty_eq {side : Side} {price : Price} {pre : List Level} {level : Level}
    {post : List Level} (h : InLine side (pre ++ level :: post))
    (hp : level.price.SameValue price) :
    dropIfEmpty price ⟨side, pre ++ level :: post⟩ = ⟨side, pre ++ (level.kept ++ post)⟩ := by
  have hkeep (ls : List Level) (hls : ∀ x ∈ ls, ¬ x.price.SameValue price) :
      ls.filter (fun x => !(x.orders.isEmpty && decide (x.price.SameValue price))) = ls :=
    List.filter_eq_self.mpr fun x hx => by simp [hls x hx]
  obtain ⟨hpre, hpost⟩ := h.around
  have hrank := (side.sameValue_iff _ _).mp hp
  unfold dropIfEmpty
  rw [List.filter_append, hkeep pre, List.filter_cons, hkeep post]
  · unfold Level.kept
    cases level.orders.isEmpty <;> simp [hp]
  · intro x hx
    have := hpost x hx
    rw [side.sameValue_iff]
    omega
  · intro x hx
    have := hpre x hx
    rw [side.sameValue_iff]
    omega

section Cases

variable {l : Ladder} {o : Order} {price : Price} {pre : List Level} {level : Level}
  {post : List Level} {xs ys : List Order}

theorem push_run (price : Price) (o : Order) (l : Ladder) :
    push price o l =
      match pushAt l.side price o l.levels l.levels with
      | .ok a x => .ok a { l with levels := x }
      | .error f x => .error f { l with levels := x } := by
  unfold push
  rw [Attempt.run_bind, Attempt.run_get]
  dsimp only
  rw [Attempt.run_focus]
  cases pushAt l.side price o l.levels l.levels <;> rfl

/-- An order comes to stand at a level of the ladder or at a new one. If `total` goes out of range
the order is not let in. -/
theorem push_cases (h : l.Sound) (hp : o.StandsAt l.side price) (hpos : 0 < o.remaining)
    (hnew : ∀ x ∈ l.orders, x.sequence ≠ o.sequence) :
    ∃ (old : List Level) (level : Level),
      ((old = [level] ∧ level ∈ l.levels ∧ level.price.SameValue price) ∨
        (old = [] ∧ level = .empty price)) ∧
      level.Sound l.side ∧
      match level.total.add? o.remaining with
      | none => ∃ l', Exchanged old [level] l l' ∧
          push price o l = .error (.violation (.quantityOverflow level.price)) l'
      | some total => ∃ xs ys l', level.orders = xs ++ ys ∧
          (⟨level.price, xs ++ o :: ys, total⟩ : Level).Sound l.side ∧
          Exchanged old [⟨level.price, xs ++ o :: ys, total⟩] l l' ∧
          push price o l = .ok ⟨⟩ l' := by
  obtain ⟨pre, level, post, hsplit, hsame, hline, hrun⟩ := pushAt_run price o h.inLine
  have hsound : level.Sound l.side := by
    rcases hsplit with hl | ⟨-, rfl⟩
    · exact h.sound level (by rw [hl]; exact List.mem_append_right _ List.mem_cons_self)
    · exact Level.sound_empty _ _
  have hfree : ∀ x ∈ level.orders, x.sequence ≠ o.sequence := by
    intro x hx
    rcases hsplit with hl | ⟨-, rfl⟩
    · exact hnew x (List.mem_flatMap.mpr
        ⟨level, by rw [hl]; exact List.mem_append_right _ List.mem_cons_self, hx⟩)
    · cases hx
  have hplace : ∃ old, ((old = [level] ∧ level ∈ l.levels ∧ level.price.SameValue price) ∨
      (old = [] ∧ level = .empty price)) ∧ l.levels = pre ++ (old ++ post) := by
    rcases hsplit with hl | ⟨hl, hnew⟩
    · refine ⟨[level], Or.inl ⟨rfl, ?_, hsame⟩, hl⟩
      rw [hl]
      exact List.mem_append_right _ List.mem_cons_self
    · exact ⟨[], Or.inr ⟨rfl, hnew⟩, hl⟩
  obtain ⟨old, hold, hl⟩ := hplace
  have hstands : o.StandsAt l.side level.price := by
    obtain ⟨q, hq, hqv⟩ := hp.price_eq
    exact ⟨hp.side_eq, hp.orderType_eq, q, hq, hqv.trans hsame.symm⟩
  obtain ⟨xs, ys, hx, hsounds, hlevel⟩ := hsound.push_run hstands hpos hfree
  refine ⟨old, level, hold, hsound, ?_⟩
  rw [hlevel] at hrun
  rw [push_run, hrun]
  cases level.total.add? o.remaining with
  | none =>
      exact ⟨{ l with levels := pre ++ level :: post }, ⟨rfl, hline, pre, post, hl, rfl⟩, rfl⟩
  | some total =>
      refine ⟨xs, ys, { l with levels := pre ++ ⟨level.price, xs ++ o :: ys, total⟩ :: post },
        hx, hsounds total, ⟨rfl, ?_, pre, post, hl, rfl⟩, rfl⟩
      exact hline.rewrite rfl

/-- An order of a ladder stands in line at one of its levels. -/
theorem exists_place (ho : o ∈ l.orders) :
    ∃ pre level post xs ys, l.levels = pre ++ level :: post ∧ level.orders = xs ++ o :: ys := by
  obtain ⟨level, hlevel, ho⟩ := List.mem_flatMap.mp ho
  obtain ⟨pre, post, hl⟩ := List.append_of_mem hlevel
  obtain ⟨xs, ys, hx⟩ := List.append_of_mem ho
  exact ⟨pre, level, post, xs, ys, hl, hx⟩

/-- An order that `remove` takes out is gone from its level even if the sum goes out of range. -/
theorem Sound.remove_run (h : l.Sound) (hl : l.levels = pre ++ level :: post)
    (hx : level.orders = xs ++ o :: ys) (hp : o.price = some price) :
    remove price o.sequence l =
      match orFault (level.total.sub o.remaining) with
      | .error f => .error f
          { l with levels := pre ++ ⟨level.price, xs ++ ys, level.total⟩ :: post }
      | .ok total => .ok (some o)
          { l with levels := pre ++ (Level.kept ⟨level.price, xs ++ ys, total⟩ ++ post) } := by
  have hlevel := h.at hl
  have hsame := hlevel.sameValue hx hp
  have hrun : remove price o.sequence l =
      match onLevel price (Level.remove o.sequence) l with
      | .ok a x => .ok a (if a.isSome then dropIfEmpty price x else x)
      | .error f x => .error f x := by
    unfold remove
    rw [Attempt.run_bind]
    cases onLevel price (Level.remove o.sequence) l with
    | error f x => rfl
    | ok a x => cases a <;> rfl
  rw [hrun, onLevel_run _ h hl hsame, hlevel.remove_run hx]
  cases orFault (level.total.sub o.remaining) with
  | error f => rfl
  | ok total =>
      have hline : InLine l.side (pre ++ ⟨level.price, xs ++ ys, total⟩ :: post) :=
        (hl ▸ h.inLine : InLine l.side (pre ++ level :: post)).rewrite rfl
      dsimp only [Option.isSome_some]
      rw [if_pos rfl, dropIfEmpty_eq hline hsame]

/-- `fillBest` is at the first order of the first level, and it is done even if the sum goes out of
range. -/
theorem fillBest_run (hl : l.levels = level :: post) (hx : level.orders = o :: ys)
    (q : Quantity) :
    fillBest q l =
      match o.fill q with
      | .error f => .error f l
      | .ok o' =>
        match orFault (level.total.sub q) with
        | .error f =>
          .error f { l with levels := ⟨level.price, o' :: ys, level.total⟩ :: post }
        | .ok total => .ok o' { l with levels := ⟨level.price, o' :: ys, total⟩ :: post } := by
  unfold fillBest
  rw [Attempt.run_bind, Attempt.run_get]
  dsimp only
  rw [hl]
  dsimp only
  rw [Attempt.run_focus, Level.fillFront_run, hx]
  dsimp only
  cases o.fill q with
  | error f =>
      cases l
      cases hl
      rfl
  | ok o' =>
      dsimp only
      cases orFault (level.total.sub q) <;> rfl

/-- `reduce` leaves an order in its place. -/
theorem Sound.reduce_run (h : l.Sound) (hl : l.levels = pre ++ level :: post)
    (hx : level.orders = xs ++ o :: ys) (hp : o.price = some price) (q : Quantity) :
    reduce price o.sequence q l =
      match Order.setRemaining q o with
      | .error f o' =>
        .error f { l with levels := pre ++ ⟨level.price, xs ++ o' :: ys, level.total⟩ :: post }
      | .ok _ o' =>
        match orFault (level.total.sub o.remaining) with
        | .error f =>
          .error f { l with levels := pre ++ ⟨level.price, xs ++ o' :: ys, level.total⟩ :: post }
        | .ok without =>
          match orFault (without.add q) with
          | .error f =>
            .error f { l with levels := pre ++ ⟨level.price, xs ++ o' :: ys, level.total⟩ :: post }
          | .ok total => .ok (some o')
              { l with levels := pre ++ ⟨level.price, xs ++ o' :: ys, total⟩ :: post } := by
  have hlevel := h.at hl
  unfold reduce
  rw [onLevel_run _ h hl (hlevel.sameValue hx hp), hlevel.reduce_run hx]
  cases Order.setRemaining q o with
  | error f o' => rfl
  | ok _ o' =>
      dsimp only
      cases orFault (level.total.sub o.remaining) with
      | error f => rfl
      | ok without =>
          dsimp only
          cases orFault (without.add q) <;> rfl

end Cases

end Ladder

end Bourse
