import Bourse.Proofs.Book.Request

/-!
# Requests made in vain

A request that is answered with a broken rule, or with no order, was made in vain: it
`Fails`. One would have the book be what it was before, and nearly always it is. Two kinds
of request do not keep to that, and `Request.Strays` lists them. An order of which nothing
is left is refused only when a level has been opened for it, and the level stays. An order
that can no longer be cancelled is looked at only when `Book.take` has taken it out, and
it does not come back.
-/

namespace Bourse

namespace Book

/-- The request is answered with a `violation` or with no order. -/
def Request.Fails (r : Request) (b b' : Book) : Prop :=
  r.run b = .ok none b' ∨ ∃ v, r.run b = .error (.violation v) b'

/-- What a request made in vain can leave changed: a level that has been opened for an order that
is then refused, or a book without an order that could not be cancelled. -/
inductive Request.Strays (b b' : Book) : Request → Prop
  | opened {o : Order} {price : Price} : ¬ b.Has o.id → o.orderType = .limit →
      o.price = some price → o.remaining ≤ 0 →
      (∀ level ∈ (b.ladder o.side).levels, ¬ level.price.SameValue price) →
      Opened o.side price b b' → Strays b b' (.insert o)
  | departed {o : Order} : b.Holds o → o.status.isLive = false → Departed o b b' →
      Strays b b' (.cancel o.id)

section Failure

variable {b b' : Book} {o : Order} {id : OrderId} {side : Side} {price : Price} {q : Quantity}

/-- Whether a request `Fails` can be read off what `run` comes to. -/
theorem Request.Fails.not_ok {r : Request} (hf : r.Fails b b') {x : Order} {b'' : Book} :
    r.run b ≠ .ok (some x) b'' := by
  intro hrun
  rcases hf with hf | ⟨v, hf⟩ <;> rw [hrun] at hf <;> cases hf

theorem Request.Fails.not_arithmetic {r : Request} (hf : r.Fails b b') {err : ArithmeticError}
    {b'' : Book} : r.run b ≠ .error (.arithmetic err) b'' := by
  intro hrun
  rcases hf with hf | ⟨v, hf⟩ <;> rw [hrun] at hf <;> cases hf

theorem Request.Fails.of_error {r : Request} (hf : r.Fails b b') {f : Fault} {b'' : Book}
    (hrun : r.run b = .error f b'') : b' = b'' := by
  rcases hf with hf | ⟨v, hf⟩ <;> rw [hrun] at hf <;> cases hf
  rfl

theorem Request.Fails.of_none {r : Request} (hf : r.Fails b b') {b'' : Book}
    (hrun : r.run b = .ok none b'') : b' = b'' := by
  rcases hf with hf | ⟨v, hf⟩ <;> rw [hrun] at hf <;> cases hf
  rfl

/-! ## One kind of request after the other -/

theorem insert_fails (h : b.Sound) (hf : (Request.insert o).Fails b b') :
    b' = b ∨ (Request.insert o).Strays b b' := by
  have hrun := run_insert o b
  have hins := inserted h o
  generalize insert o b = result at hrun hins
  cases hins with
  | refused _ => exact Or.inl (hf.of_error hrun)
  | opened hfree htype hprice hpos hnew hopen =>
      obtain rfl := hf.of_error hrun
      exact Or.inr (.opened hfree htype hprice hpos hnew hopen)
  | overflowed _ _ _ => exact Or.inl (hf.of_error hrun)
  | put _ _ _ _ _ _ => exact absurd hrun hf.not_ok

/-- `take` finds an order that rests, and only the arithmetic can object to taking it out. -/
theorem take_held (h : b.Sound) (ho : b.Holds o) :
    (∃ b', Departed o b b' ∧ take o.id b = .ok (some o) b') ∨
      ∃ err b', take o.id b = .error (.arithmetic err) b' := by
  obtain ⟨level, -, xs, ys, -, htake⟩ := take_cases h ho
  cases htotal : level.total.sub o.remaining with
  | error err =>
      rw [htotal] at htake
      obtain ⟨b', -, -, hrun⟩ := htake
      exact Or.inr ⟨err, b', hrun⟩
  | ok total =>
      rw [htotal] at htake
      obtain ⟨b', -, hdep, hrun⟩ := htake
      exact Or.inl ⟨b', hdep, hrun⟩

theorem take_fails (h : b.Sound) (hf : (Request.take id).Fails b b') : b' = b := by
  by_cases hid : b.Has id
  · obtain ⟨o, ho, rfl⟩ := hid
    rcases take_held h ho with ⟨b'', -, hrun⟩ | ⟨err, b'', hrun⟩
    · exact absurd hrun hf.not_ok
    · exact absurd hrun hf.not_arithmetic
  · exact hf.of_none (take_absent h hid)

theorem cancel_fails (h : b.Sound) (hf : (Request.cancel id).Fails b b') :
    b' = b ∨ (Request.cancel id).Strays b b' := by
  have hrun : (Request.cancel id).run b = cancel id b := rfl
  rw [cancel_run] at hrun
  by_cases hid : b.Has id
  · obtain ⟨o, ho, rfl⟩ := hid
    rcases take_held h ho with ⟨b'', hdep, htake⟩ | ⟨err, b'', htake⟩
    · rw [htake] at hrun
      dsimp only at hrun
      rw [Order.cancel_eq] at hrun
      cases hlive : o.status.isLive with
      | true =>
          rw [hlive] at hrun
          exact absurd hrun hf.not_ok
      | false =>
          rw [hlive] at hrun
          obtain rfl := hf.of_none hrun
          exact Or.inr (.departed ho hlive hdep)
    · rw [htake] at hrun
      exact absurd hrun hf.not_arithmetic
  · rw [take_absent h hid] at hrun
    exact Or.inl (hf.of_none hrun)

theorem removeFilled_fails (h : b.Sound) (hf : (Request.removeFilled id).Fails b b') : b' = b := by
  have hrun := run_removeFilled id b
  by_cases hid : b.Has id
  · obtain ⟨o, ho, rfl⟩ := hid
    rw [removeFilled_run h ho] at hrun
    by_cases hpos : 0 < o.remaining
    · rw [if_pos hpos] at hrun
      exact hf.of_error hrun
    · rw [if_neg hpos] at hrun
      rcases take_held h ho with ⟨b'', -, htake⟩ | ⟨err, b'', htake⟩
      · rw [htake] at hrun
        exact absurd hrun hf.not_ok
      · rw [htake] at hrun
        exact absurd hrun hf.not_arithmetic
  · rw [removeFilled_absent h hid] at hrun
    exact hf.of_error hrun

theorem fillBest_fails (h : b.Sound) (hf : (Request.fillBest side q).Fails b b') : b' = b := by
  have hrun := run_fillBest side q b
  cases hfront : (b.ladder side).best?.bind Level.front? with
  | none =>
      obtain ⟨price, hfill⟩ := fillBest_absent hfront q
      rw [hfill] at hrun
      exact hf.of_error hrun
  | some o =>
      obtain ⟨level, post, ys, hl, hx⟩ := front_eq_some.mp hfront
      have hfill := fillBest_cases h hl hx q
      cases hmade : o.fill q with
      | error f =>
          rw [hmade] at hfill
          rw [hfill] at hrun
          exact hf.of_error hrun
      | ok o' =>
          rw [hmade] at hfill
          dsimp only at hfill
          cases htotal : level.total.sub q with
          | error err =>
              rw [htotal] at hfill
              obtain ⟨b'', -, -, hfill⟩ := hfill
              rw [hfill] at hrun
              exact absurd hrun hf.not_arithmetic
          | ok total =>
              rw [htotal] at hfill
              dsimp only [orFault] at hfill
              split at hfill
              · obtain ⟨_, b'', -, -, -, hfill⟩ := hfill
                rw [hfill] at hrun
                exact absurd hrun hf.not_ok
              · obtain ⟨b'', -, -, hfill⟩ := hfill
                rw [hfill] at hrun
                exact absurd hrun hf.not_ok

theorem reduce_fails (h : b.Sound) (hf : (Request.reduce id q).Fails b b') : b' = b := by
  have hrun := run_reduce id q b
  by_cases hid : b.Has id
  · obtain ⟨o, ho, rfl⟩ := hid
    obtain ⟨level, -, xs, ys, -, hred⟩ := reduce_cases h ho q
    -- What stops it once the order has been touched is the arithmetic.
    have hlate {err : ArithmeticError} {b'' : Book}
        (hred : reduce o.id q b = .error (.arithmetic err) b'') : b' = b := by
      rw [hred] at hrun
      exact absurd hrun hf.not_arithmetic
    by_cases hq : q ≤ 0 ∨ o.remaining < q
    · rw [if_pos hq] at hred
      rw [hred] at hrun
      exact hf.of_error hrun
    · rw [if_neg hq] at hred
      cases hset : Order.setRemaining q o with
      | error f o' =>
          obtain ⟨err, rfl⟩ := Order.setRemaining_error hset
          rw [hset] at hred
          obtain ⟨b'', -, -, hred⟩ := hred
          exact hlate hred
      | ok _ o' =>
          rw [hset] at hred
          dsimp only at hred
          cases hwithout : level.total.sub o.remaining with
          | error err =>
              rw [hwithout] at hred
              obtain ⟨b'', -, -, hred⟩ := hred
              exact hlate hred
          | ok without =>
              rw [hwithout] at hred
              dsimp only [orFault] at hred
              cases htotal : without.add q with
              | error err =>
                  rw [htotal] at hred
                  obtain ⟨b'', -, -, hred⟩ := hred
                  exact hlate hred
              | ok total =>
                  rw [htotal] at hred
                  obtain ⟨b'', -, -, hred⟩ := hred
                  rw [hred] at hrun
                  exact absurd hrun hf.not_ok
  · rw [reduce_absent h hid] at hrun
    exact hf.of_error hrun

/-! ## What has been left -/

/-- A level that has been `Opened` was not there. -/
theorem Opened.ne (h : Opened side price b b') : b' ≠ b := by
  rintro rfl
  obtain ⟨pre, post, hbefore, hafter⟩ := h.here.place
  have hlength := congrArg List.length (hbefore.symm.trans hafter)
  simp only [List.length_append, List.length_cons, List.length_nil] at hlength
  omega

/-- An order that has `Departed` was there. -/
theorem Departed.ne (h : Departed o b b') (ho : b.Holds o) : b' ≠ b := by
  rintro rfl
  exact ((h.holds_iff o).mp ho).2 rfl

theorem Request.Strays.ne {r : Request} (h : r.Strays b b') : b' ≠ b := by
  cases h with
  | opened _ _ _ _ _ hopen => exact hopen.ne
  | departed ho _ hdep => exact hdep.ne ho

/-- A request that `Fails` on a sound book leaves the book as it was, or `Strays`. -/
theorem Request.Fails.kept_or_strays {r : Request} (hf : r.Fails b b') (h : b.Sound) :
    b' = b ∨ r.Strays b b' := by
  cases r with
  | insert o => exact insert_fails h hf
  | cancel id => exact cancel_fails h hf
  | take id => exact Or.inl (take_fails h hf)
  | removeFilled id => exact Or.inl (removeFilled_fails h hf)
  | fillBest side q => exact Or.inl (fillBest_fails h hf)
  | reduce id q => exact Or.inl (reduce_fails h hf)

end Failure

/-- Whatever a book has been asked before, a request that is made in vain changes it just if it
`Strays`: an order with nothing left leaves a level behind that has been opened for it, and an order
that can no longer be cancelled is gone. -/
theorem failed_request_changes_iff {symbol : String} {n : Nat} {b b' : Book} {r : Request}
    (h : Reached (fun _ => True) symbol n b) (hf : r.Fails b b') : b' ≠ b ↔ r.Strays b b' := by
  constructor
  · intro hne
    exact (hf.kept_or_strays h.sound).resolve_left hne
  · exact Request.Strays.ne

/-- An order to buy at 1 of which nothing is left. -/
def spent : Order where
  id := ⟨.ofNat 1⟩
  symbol := "X"
  side := .buy
  orderType := .limit
  timeInForce := .goodTillCancel
  price := some 1
  quantity := 1
  timestamp := .millennium
  remaining := 0
  status := .new
  sequence := 1

/-- The empty book is asked to take in `spent`. It declines and has a best bid afterwards, but no
orders. -/
theorem failed_request_changes_iff_spent :
    (Request.insert spent).Strays (.empty "X") ((Request.insert spent).after (.empty "X")) ∧
      ((Request.insert spent).after (.empty "X")).bestBid? = some 1 ∧
      ((Request.insert spent).after (.empty "X")).size = 0 := by
  refine ⟨(failed_request_changes_iff .empty (Or.inr ⟨.notRestable spent.id, rfl⟩)).mp ?_, ?_, ?_⟩
  · decide +kernel
  · decide +kernel
  · decide +kernel

/-- Not every request that is made in vain leaves the book as it was. -/
theorem failed_insertion_leaves_level :
    ¬ ∀ symbol n (b b' : Book) (r : Request), Reached (fun _ => True) symbol n b →
      r.Fails b b' → b' = b := by
  intro h
  have hsame := h "X" 0 _ _ (.insert spent) .empty (Or.inr ⟨.notRestable spent.id, rfl⟩)
  revert hsame
  decide +kernel

end Book

end Bourse
