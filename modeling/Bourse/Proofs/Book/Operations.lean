import Bourse.Proofs.Book.Changes

/-!
# The operations of a book

Each operation on a sound book, run to its end or to its fault. Equations such as
`insert_cases` and `take_cases` name the level at work and what becomes of its sum, for
whoever wants to know when the sum is right; to all others the changes they come with,
such as `take_outcome`, are enough.
-/

namespace Bourse

namespace Book

theorem onSide_run {α : Type} (side : Side) (act : Attempt Ladder α) (b : Book) :
    onSide side act b =
      match act (b.ladder side) with
      | .ok a l => .ok a (b.setLadder l side)
      | .error f l => .error f (b.setLadder l side) := by
  unfold onSide
  rw [Attempt.run_bind, Attempt.run_get]
  dsimp only
  rw [Attempt.run_focus]
  cases act (b.ladder side) <;> rfl

theorem exchanged_setLadder {b : Book} {side : Side} {old new : List Level} {l : Ladder}
    (h : Ladder.Exchanged old new (b.ladder side) l) :
    Exchanged side old new b (b.setLadder l side) where
  here := by rw [ladder_setLadder]; exact h
  there := ladder_setLadder_opposite b l side

theorem Exchanged.index {b b' : Book} {side : Side} {old new : List Level}
    (h : Exchanged side old new b b') (t : Table OrderId Place) :
    Exchanged side old new b { b' with index := t } where
  here := by rw [ladder_index]; exact h.here
  there := by rw [ladder_index]; exact h.there

theorem insert_run (o : Order) (b : Book) :
    insert o b =
      if b.contains o.id then .error (.violation (.duplicateOrderId o.id)) b
      else
        match o.orderType, o.price with
        | .limit, some price =>
          match Ladder.push price o (b.ladder o.side) with
          | .ok _ l => .ok ⟨⟩ { b.setLadder l o.side with
              index := b.index.insert o.id ⟨o.side, price, o.sequence⟩ }
          | .error f l => .error f (b.setLadder l o.side)
        | _, _ => .error (.violation (.notRestable o.id)) b := by
  unfold insert
  rw [Attempt.run_bind, Attempt.run_get]
  dsimp only
  split
  · rfl
  · cases o.orderType with
    | market => rfl
    | limit =>
        cases o.price with
        | none => rfl
        | some price =>
            dsimp only
            rw [Attempt.run_bind, onSide_run]
            cases Ladder.push price o (b.ladder o.side) with
            | ok u l => simp only [Attempt.run_modify, index_setLadder]
            | error f l => rfl

section Operations

variable {b : Book} {o : Order} {price : Price} {side : Side} {pre : List Level} {level : Level}
  {post : List Level} {xs ys : List Order}

/-- An order under a new identity, with a number of its own, arrives if the sum of its level
stays in range. -/
theorem insert_cases (h : b.Sound) (htype : o.orderType = .limit) (hprice : o.price = some price)
    (hpos : 0 < o.remaining) (hfree : ¬ b.Has o.id)
    (hseq : ∀ x ∈ (b.ladder o.side).orders, x.sequence ≠ o.sequence) :
    ∃ (old : List Level) (level : Level),
      ((old = [level] ∧ level ∈ (b.ladder o.side).levels ∧ level.price.SameValue price) ∨
        (old = [] ∧ level = .empty price)) ∧
      match level.total.add? o.remaining with
      | none => ∃ b', Exchanged o.side old [level] b b' ∧ Kept b b' ∧
          insert o b = .error (.violation (.quantityOverflow level.price)) b'
      | some total => ∃ xs ys b', level.orders = xs ++ ys ∧
          Exchanged o.side old [⟨level.price, xs ++ o :: ys, total⟩] b b' ∧ Arrived o b b' ∧
          insert o b = .ok ⟨⟩ b' := by
  have hp : o.StandsAt (b.ladder o.side).side price :=
    ⟨(h.side_eq o.side).symm, htype, price, hprice, rfl⟩
  obtain ⟨old, level, hold, hlevel, hrun⟩ := Ladder.push_cases (h.ladder o.side) hp hpos hseq
  have hfrom : old.flatMap Level.orders = level.orders := by
    rcases hold with ⟨rfl, -⟩ | ⟨rfl, rfl⟩
    · exact List.flatMap_singleton ..
    · rfl
  have hgone : b.contains o.id = false :=
    Bool.eq_false_iff.mpr fun hc => hfree (h.contains_iff.mp hc)
  have hinsert : insert o b =
      match Ladder.push price o (b.ladder o.side) with
      | .ok _ l => .ok ⟨⟩ { b.setLadder l o.side with
          index := b.index.insert o.id ⟨o.side, price, o.sequence⟩ }
      | .error f l => .error f (b.setLadder l o.side) := by
    rw [insert_run, hgone, if_neg Bool.false_ne_true, htype, hprice]
  refine ⟨old, level, hold, ?_⟩
  cases hsum : level.total.add? o.remaining with
  | none =>
      rw [hsum] at hrun
      obtain ⟨l', hx, hpush⟩ := hrun
      have hx' := exchanged_setLadder hx
      refine ⟨_, hx', ?_, by rw [hinsert, hpush]⟩
      refine h.kept hx' ((List.flatMap_singleton ..).trans hfrom.symm) ?_ (index_setLadder ..)
      intro l hl
      rw [List.mem_singleton.mp hl, ← h.side_eq o.side]
      exact hlevel
  | some total =>
      rw [hsum] at hrun
      obtain ⟨xs, ys, l', hsplit, hsound, hx, hpush⟩ := hrun
      have hx' := (exchanged_setLadder hx).index
        (b.index.insert o.id ⟨o.side, price, o.sequence⟩)
      refine ⟨xs, ys, _, hsplit, hx', ?_, by rw [hinsert, hpush]⟩
      refine h.arrived hx' (hfrom.trans hsplit) (List.flatMap_singleton ..) ?_
        (by rw [Order.place?, hprice]; rfl) rfl hfree
      intro l hl
      rw [List.mem_singleton.mp hl, ← h.side_eq o.side]
      exact hsound

theorem take_none {id : OrderId} (h : b.index.get? id = none) : take id b = .ok none b := by
  unfold take
  rw [Attempt.run_bind, Attempt.run_get]
  dsimp only
  rw [h]
  rfl

theorem take_run (h : b.Sound) (ho : b.Holds o)
    (hl : (b.ladder o.side).levels = pre ++ level :: post) (hx : level.orders = xs ++ o :: ys) :
    take o.id b =
      match orFault (level.total.sub o.remaining) with
      | .error f => .error f { b.setLadder ⟨o.side,
          pre ++ ⟨level.price, xs ++ ys, level.total⟩ :: post⟩ o.side with
          index := b.index.erase o.id }
      | .ok total => .ok (some o) { b.setLadder ⟨o.side,
          pre ++ (Level.kept ⟨level.price, xs ++ ys, total⟩ ++ post)⟩ o.side with
          index := b.index.erase o.id } := by
  obtain ⟨price, hprice, -⟩ := h.standsAt ho
  unfold take
  rw [Attempt.run_bind, Attempt.run_get]
  dsimp only
  rw [h.index_eq ho hprice]
  dsimp only
  rw [Attempt.run_bind, Attempt.run_modify]
  dsimp only
  rw [onSide_run, ladder_index, (h.ladder o.side).remove_run hl hx hprice, h.side_eq]
  cases orFault (level.total.sub o.remaining) <;> cases o.side <;> rfl

/-- An order that is taken out has `Departed`, whatever the sum of its level does. -/
theorem take_cases (h : b.Sound) (ho : b.Holds o) :
    ∃ level ∈ (b.ladder o.side).levels, ∃ xs ys, level.orders = xs ++ o :: ys ∧
      match orFault (level.total.sub o.remaining) with
      | .error f => ∃ b', Exchanged o.side [level] [⟨level.price, xs ++ ys, level.total⟩] b b' ∧
          Departed o b b' ∧ take o.id b = .error f b'
      | .ok total =>
          ∃ b', Exchanged o.side [level] (Level.kept ⟨level.price, xs ++ ys, total⟩) b b' ∧
          Departed o b b' ∧ take o.id b = .ok (some o) b' := by
  obtain ⟨pre, level, post, xs, ys, hl, hx⟩ := Ladder.exists_place ho
  have hlevel := (h.ladder o.side).at hl
  rw [h.side_eq] at hlevel
  have hold : [level].flatMap Level.orders = xs ++ o :: ys := (List.flatMap_singleton ..).trans hx
  refine ⟨level, by rw [hl]; exact List.mem_append_right _ List.mem_cons_self, xs, ys, hx, ?_⟩
  rw [take_run h ho hl hx]
  cases orFault (level.total.sub o.remaining) with
  | error f =>
      have hrw := Ladder.Exchanged.rewritten (h.ladder o.side) hl
        ⟨level.price, xs ++ ys, level.total⟩ rfl
      rw [h.side_eq] at hrw
      have hx' := (exchanged_setLadder hrw).index (b.index.erase o.id)
      refine ⟨_, hx', h.departed ho hx' hold (List.flatMap_singleton ..) ?_ rfl, rfl⟩
      intro l hl
      rw [List.mem_singleton.mp hl]
      exact hlevel.without hx level.total
  | ok total =>
      have hrw := Ladder.Exchanged.kept (h.ladder o.side) hl
        ⟨level.price, xs ++ ys, total⟩ rfl
      rw [h.side_eq] at hrw
      have hx' := (exchanged_setLadder hrw).index (b.index.erase o.id)
      refine ⟨_, hx', h.departed ho hx' hold (Level.kept_orders _) ?_ rfl, rfl⟩
      intro l hl
      rw [(Level.mem_kept.mp hl).1]
      exact hlevel.without hx total

/-- What `take` comes to, with the levels left out. -/
theorem take_outcome (h : b.Sound) (ho : b.Holds o) :
    match take o.id b with
    | .ok r b' => r = some o ∧ Departed o b b'
    | .error _ b' => Departed o b b' := by
  obtain ⟨level, -, xs, ys, -, htake⟩ := take_cases h ho
  split at htake
  · obtain ⟨b', -, hdep, hrun⟩ := htake
    rw [hrun]
    exact hdep
  · obtain ⟨b', -, hdep, hrun⟩ := htake
    rw [hrun]
    exact ⟨rfl, hdep⟩

theorem cancel_run (id : OrderId) (b : Book) :
    cancel id b =
      match take id b with
      | .ok none b' => .ok none b'
      | .ok (some o) b' => .ok o.cancel.toOption b'
      | .error f b' => .error f b' := by
  unfold cancel
  rw [Attempt.run_bind]
  cases take id b with
  | error f b' => rfl
  | ok r b' => cases r <;> rfl

/-- An order is rewritten at its level, whatever becomes of the sum. -/
theorem Sound.rewritten_at (h : b.Sound) (ho : b.Holds o)
    (hl : (b.ladder o.side).levels = pre ++ level :: post) (hx : level.orders = xs ++ o :: ys)
    {o' : Order} (hsame : o.Same o') (total : Quantity) :
    ∃ b', b' = b.setLadder ⟨o.side, pre ++ ⟨level.price, xs ++ o' :: ys, total⟩ :: post⟩ o.side ∧
      Exchanged o.side [level] [⟨level.price, xs ++ o' :: ys, total⟩] b b' ∧
      Rewritten o o' b b' := by
  have hlevel := (h.ladder o.side).at hl
  rw [h.side_eq] at hlevel
  have hrw := Ladder.Exchanged.rewritten (h.ladder o.side) hl
    ⟨level.price, xs ++ o' :: ys, total⟩ rfl
  rw [h.side_eq] at hrw
  have hx' := exchanged_setLadder hrw
  refine ⟨_, rfl, hx', h.rewritten ho hx' ((List.flatMap_singleton ..).trans hx)
    (List.flatMap_singleton ..) hsame ?_ (index_setLadder ..)⟩
  intro l hl
  rw [List.mem_singleton.mp hl]
  exact hlevel.rewrite hx hsame total

theorem removeFilled_run (h : b.Sound) (ho : b.Holds o) :
    removeFilled o.id b =
      if 0 < o.remaining then .error (.violation (.notFilled o.id)) b
      else
        match take o.id b with
        | .error f b' => .error f b'
        | .ok (some x) b' => .ok x b'
        | .ok none b' => .error (.violation (.unknownOrder o.id)) b' := by
  unfold removeFilled
  rw [Attempt.run_bind, Attempt.run_get]
  dsimp only
  rw [h.get?_eq ho]
  dsimp only
  split
  · rfl
  · rw [Attempt.run_bind]
    cases take o.id b with
    | error f b' => rfl
    | ok r b' => cases r <;> rfl

theorem fillBest_run (side : Side) (q : Quantity) (b : Book) :
    fillBest side q b =
      match onSide side (Ladder.fillBest q) b with
      | .error f b' => .error f b'
      | .ok o b' =>
        if o.remaining.SameValue 0 then
          match removeFilled o.id b' with
          | .error f b'' => .error f b''
          | .ok _ b'' => .ok o b''
        else .ok o b' := by
  unfold fillBest
  rw [Attempt.run_bind]
  cases onSide side (Ladder.fillBest q) b with
  | error f b' => rfl
  | ok o b' =>
      dsimp only
      split
      · rw [Attempt.run_bind]
        cases removeFilled o.id b' <;> rfl
      · rfl

/-- `removeFilled` finds an order that a fill has used up where it was filled, and takes it out from
there. -/
theorem removeFilled_front (h : b.Sound) (ho : b.Holds o)
    (hl : (b.ladder o.side).levels = level :: post) (hx : level.orders = o :: ys) {o' : Order}
    (hsame : o.Same o') (hz : o'.remaining.SameValue 0) (total : Quantity) {b₁ : Book}
    (hb₁ : b₁ = b.setLadder ⟨o.side, ⟨level.price, o' :: ys, total⟩ :: post⟩ o.side)
    (hw : Rewritten o o' b b₁) :
    ∃ total' b', total'.atoms = total.atoms ∧
      Exchanged o.side [level] (Level.kept ⟨level.price, ys, total'⟩) b b' ∧
      Departed o b b' ∧ removeFilled o'.id b₁ = .ok o' b' := by
  have hfront : (b.ladder o.side).levels = [] ++ level :: post := hl
  have hfirst : level.orders = [] ++ o :: ys := hx
  have hlevel := (h.ladder o.side).at hfront
  rw [h.side_eq] at hlevel
  have hold : [level].flatMap Level.orders = [] ++ o :: ys := (List.flatMap_singleton ..).trans hx
  have hl₁ : (b₁.ladder o'.side).levels =
      [] ++ ⟨level.price, [] ++ o' :: ys, total⟩ :: post := by
    rw [hb₁, hsame.side_eq, ladder_setLadder]
    rfl
  have ho' : b₁.Holds o' := (hw.holds_iff o').mpr (Or.inl rfl)
  obtain ⟨total', ht, hta⟩ := Decimal.sub_zero total (b := o'.remaining) hz
  have hrun := take_run hw.sound ho' hl₁ rfl
  dsimp only at hrun
  rw [ht] at hrun
  have hkept := Ladder.Exchanged.kept (h.ladder o.side) hfront ⟨level.price, ys, total'⟩ rfl
  rw [h.side_eq] at hkept
  have hx' := (exchanged_setLadder hkept).index (b.index.erase o.id)
  refine ⟨total', _, hta, hx', h.departed ho hx' hold (Level.kept_orders _) ?_ rfl, ?_⟩
  · intro l hl
    rw [(Level.mem_kept.mp hl).1]
    exact hlevel.without hfirst total'
  · have hnot : ¬ 0 < o'.remaining := Int.not_lt.mpr (Int.le_of_eq hz)
    rw [removeFilled_run hw.sound ho', if_neg hnot, hrun]
    dsimp only [orFault]
    rw [hb₁, hsame.side_eq, hsame.id_eq]
    cases o.side <;> rfl

/-- The order in line is filled, and if that uses it up it departs. -/
theorem fillBest_cases (h : b.Sound) (hl : (b.ladder side).levels = level :: post)
    (hx : level.orders = o :: ys) (q : Quantity) :
    match o.fill q with
    | .error f => fillBest side q b = .error f b
    | .ok o' =>
      match orFault (level.total.sub q) with
      | .error f => ∃ b', Exchanged side [level] [⟨level.price, o' :: ys, level.total⟩] b b' ∧
          Rewritten o o' b b' ∧ fillBest side q b = .error f b'
      | .ok total =>
        if o'.remaining.SameValue 0 then
          ∃ total' b', total'.atoms = total.atoms ∧
            Exchanged side [level] (Level.kept ⟨level.price, ys, total'⟩) b b' ∧
            Departed o b b' ∧ fillBest side q b = .ok o' b'
        else
          ∃ b', Exchanged side [level] [⟨level.price, o' :: ys, total⟩] b b' ∧
            Rewritten o o' b b' ∧ fillBest side q b = .ok o' b' := by
  have hmem : o ∈ (b.ladder side).orders := by
    rw [Ladder.orders, hl]
    exact List.mem_append_left _ (by rw [hx]; exact List.mem_cons_self)
  have ho := h.holds_of_mem hmem
  obtain rfl := h.side_of_mem hmem
  have hfront : (b.ladder o.side).levels = [] ++ level :: post := hl
  have hfirst : level.orders = [] ++ o :: ys := hx
  rw [fillBest_run, onSide_run, Ladder.fillBest_run hl hx]
  cases hf : o.fill q with
  | error f =>
      dsimp only
      congr 1
      cases b
      cases o.side <;> rfl
  | ok o' =>
      have hsame := Order.fill_same hf
      dsimp only
      rw [h.side_eq]
      cases orFault (level.total.sub q) with
      | error f =>
          obtain ⟨b', hb', hx', hw⟩ := h.rewritten_at ho hfront hfirst hsame level.total
          exact ⟨b', hx', hw, by rw [hb']; rfl⟩
      | ok total =>
          obtain ⟨b₁, hb₁, hx₁, hw⟩ := h.rewritten_at ho hfront hfirst hsame total
          dsimp only
          dsimp only [List.nil_append] at hb₁ hx₁
          rw [← hb₁]
          split
          · next hz =>
              obtain ⟨total', b', hta, hx', hdep, hrun⟩ :=
                removeFilled_front h ho hl hx hsame hz total hb₁ hw
              rw [hrun]
              exact ⟨total', b', hta, hx', hdep, rfl⟩
          · exact ⟨b₁, hx₁, hw, rfl⟩

theorem reduce_run (h : b.Sound) (ho : b.Holds o) (hprice : o.price = some price) (q : Quantity) :
    reduce o.id q b =
      if q ≤ 0 ∨ o.remaining < q then
        .error (.violation (.overfill o.id o.remaining q)) b
      else
        match onSide o.side (Ladder.reduce price o.sequence q) b with
        | .error f b' => .error f b'
        | .ok (some x) b' => .ok x b'
        | .ok none b' => .error (.violation (.unknownOrder o.id)) b' := by
  unfold reduce
  rw [Attempt.run_bind, Attempt.run_get]
  dsimp only
  rw [h.index_eq ho hprice, h.get?_eq ho]
  dsimp only
  split
  · rfl
  · rw [Attempt.run_bind]
    cases onSide o.side (Ladder.reduce price o.sequence q) b with
    | error f b' => rfl
    | ok r b' => cases r <;> rfl

/-- An order that is lessened is rewritten, or nothing happens. -/
theorem reduce_cases (h : b.Sound) (ho : b.Holds o) (q : Quantity) :
    ∃ level ∈ (b.ladder o.side).levels, ∃ xs ys, level.orders = xs ++ o :: ys ∧
      if q ≤ 0 ∨ o.remaining < q then
        reduce o.id q b = .error (.violation (.overfill o.id o.remaining q)) b
      else
        match Order.setRemaining q o with
        | .error f o' =>
            ∃ b', Exchanged o.side [level] [⟨level.price, xs ++ o' :: ys, level.total⟩] b b' ∧
              Rewritten o o' b b' ∧ reduce o.id q b = .error f b'
        | .ok _ o' =>
          match orFault (level.total.sub o.remaining) with
          | .error f =>
              ∃ b', Exchanged o.side [level] [⟨level.price, xs ++ o' :: ys, level.total⟩] b b' ∧
                Rewritten o o' b b' ∧ reduce o.id q b = .error f b'
          | .ok without =>
            match orFault (without.add q) with
            | .error f =>
                ∃ b', Exchanged o.side [level] [⟨level.price, xs ++ o' :: ys, level.total⟩] b b' ∧
                  Rewritten o o' b b' ∧ reduce o.id q b = .error f b'
            | .ok total =>
                ∃ b', Exchanged o.side [level] [⟨level.price, xs ++ o' :: ys, total⟩] b b' ∧
                  Rewritten o o' b b' ∧ reduce o.id q b = .ok o' b' := by
  obtain ⟨pre, level, post, xs, ys, hl, hx⟩ := Ladder.exists_place ho
  obtain ⟨price, hprice, -⟩ := h.standsAt ho
  refine ⟨level, by rw [hl]; exact List.mem_append_right _ List.mem_cons_self, xs, ys, hx, ?_⟩
  rw [reduce_run h ho hprice]
  split
  · rfl
  · rw [onSide_run, (h.ladder o.side).reduce_run hl hx hprice, h.side_eq]
    have hsame := Order.setRemaining_same q o
    cases hr : Order.setRemaining q o with
    | error f o' =>
        rw [Attempt.outcome_error hr] at hsame
        obtain ⟨b', hb', hx', hw⟩ := h.rewritten_at ho hl hx hsame level.total
        exact ⟨b', hx', hw, by rw [hb']⟩
    | ok _ o' =>
        rw [Attempt.outcome_ok hr] at hsame
        dsimp only
        cases orFault (level.total.sub o.remaining) with
        | error f =>
            obtain ⟨b', hb', hx', hw⟩ := h.rewritten_at ho hl hx hsame level.total
            exact ⟨b', hx', hw, by rw [hb']⟩
        | ok without =>
            dsimp only
            cases orFault (without.add q) with
            | error f =>
                obtain ⟨b', hb', hx', hw⟩ := h.rewritten_at ho hl hx hsame level.total
                exact ⟨b', hx', hw, by rw [hb']⟩
            | ok total =>
                obtain ⟨b', hb', hx', hw⟩ := h.rewritten_at ho hl hx hsame total
                exact ⟨b', hx', hw, by rw [hb']⟩

/-- What `reduce` comes to, with the levels left out. -/
theorem reduce_outcome (h : b.Sound) (ho : b.Holds o) (q : Quantity) :
    match reduce o.id q b with
    | .ok o' b' => 0 < q ∧ q ≤ o.remaining ∧ Order.setRemaining q o = .ok ⟨⟩ o' ∧
        Rewritten o o' b b'
    | .error _ b' => b' = b ∨ (0 < q ∧ q ≤ o.remaining ∧
        ∃ o', o' = (Attempt.outcome (Order.setRemaining q) o).2 ∧ Rewritten o o' b b') := by
  obtain ⟨level, -, xs, ys, -, hred⟩ := reduce_cases h ho q
  by_cases hq : q ≤ 0 ∨ o.remaining < q
  · rw [if_pos hq] at hred
    rw [hred]
    exact Or.inl rfl
  · rw [if_neg hq] at hred
    have hpos : 0 < q := Int.not_le.mp fun hle => hq (Or.inl hle)
    have hle : q ≤ o.remaining := Int.not_lt.mp fun hlt => hq (Or.inr hlt)
    cases hset : Order.setRemaining q o with
    | error f o' =>
        rw [hset] at hred
        obtain ⟨b', -, hrew, hrun⟩ := hred
        rw [hrun]
        exact Or.inr ⟨hpos, hle, o', by rw [Attempt.outcome_error hset], hrew⟩
    | ok _ o' =>
        rw [hset] at hred
        dsimp only at hred
        have hlate {f : Fault} {b' : Book} (hrew : Rewritten o o' b b')
            (hrun : reduce o.id q b = .error f b') :
            match reduce o.id q b with
            | .ok x b' => 0 < q ∧ q ≤ o.remaining ∧
                (EStateM.Result.ok ⟨⟩ o' : EStateM.Result Fault Order Unit) = .ok ⟨⟩ x ∧
                Rewritten o x b b'
            | .error _ b' => b' = b ∨ (0 < q ∧ q ≤ o.remaining ∧
                ∃ x, x = (Attempt.outcome (Order.setRemaining q) o).2 ∧ Rewritten o x b b') := by
          rw [hrun]
          exact Or.inr ⟨hpos, hle, o', by rw [Attempt.outcome_ok hset], hrew⟩
        split at hred
        · obtain ⟨b', -, hrew, hrun⟩ := hred
          exact hlate hrew hrun
        · split at hred
          · obtain ⟨b', -, hrew, hrun⟩ := hred
            exact hlate hrew hrun
          · obtain ⟨b', -, hrew, hrun⟩ := hred
            rw [hrun]
            exact ⟨hpos, hle, rfl, hrew⟩

end Operations

end Book

end Bourse
