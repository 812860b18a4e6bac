import Bourse.Proofs.Order

/-!
# An order through its calls

Three calls change an order that has been accepted: `fill`, `cancel` and `reject`.
`Call.perform` carries them out on the order itself, write by write. A fill moves the
status on (`shift`) before it takes its quantity from what is left, so it would leave an
order half changed if that difference had no result; it always has one, and a call that
fails has written nothing. That is `Call.perform_run`, after which only `Call.after` is
spoken of.

The status is decided by a comparison and what is left by a subtraction that may round.
That the two tell the same story whatever has been called before is `InStep`, which every
call preserves (`succeeded`, `failed`); what a single call does to an order that is in
step is read off it, and is collected in `Answers`.
-/

namespace Bourse

theorem OrderStatus.isLive_iff {s : OrderStatus} :
    s.isLive = true ↔ s = .new ∨ s = .partiallyFilled := by
  cases s <;> simp [OrderStatus.isLive]

namespace Order

/-- What can be asked of an order. -/
inductive Call where
  | fill (quantity : Quantity)
  | cancel
  | reject
deriving DecidableEq

/-- Moves the status on with `OrderStatus.advance` and answers with the new one. -/
def shift (t : OrderTransition) : Attempt Order OrderStatus := do
  match (← get).status.advance t with
  | .error v => Attempt.violate v
  | .ok s =>
    modify fun o => { o with status := s }
    return s

/-- The call on the order itself, write by write; the answer is the status reached. -/
def Call.perform : Call → Attempt Order OrderStatus
  | .fill q => do
    let o ← get
    if q ≤ 0 ∨ o.remaining < q then Attempt.violate (.overfill o.id o.remaining q)
    else
      let s ← shift (if q.SameValue o.remaining then .fill else .partialFill)
      let r ← Attempt.lift (orFault (o.remaining.sub q))
      modify fun o => { o with remaining := r }
      return s
  | .cancel => shift .cancel
  | .reject => shift .reject

/-- The order that a call makes of another, by `Order.fill`, `Order.cancel` or `Order.reject`. -/
def Call.after : Call → Order → Except Fault Order
  | .fill q, o => o.fill q
  | .cancel, o => o.cancel.mapError .violation
  | .reject, o => o.reject.mapError .violation

/-- What was called, and what it was answered. -/
abbrev Log := List (Call × Except Fault OrderStatus)

/-- The calls one after another: the `Log` of them, and the order as they leave it. -/
def performAll : List Call → Order → Log × Order
  | [], o => ([], o)
  | c :: calls, o =>
    let here := Attempt.outcome c.perform o
    let rest := performAll calls here.2
    ((c, here.1) :: rest.1, rest.2)

variable {o o' : Order} {c : Call} {f : Fault} {s : OrderStatus}

/-! ## One call -/

theorem shift_run (t : OrderTransition) (o : Order) :
    shift t o =
      match o.advance t with
      | .ok o' => .ok o'.status o'
      | .error v => .error (.violation v) o := by
  unfold shift advance
  simp only [Attempt.run_bind, Attempt.run_get]
  cases o.status.advance t <;> rfl

/-- On the order itself a call does what `after` makes of the order, or nothing at all. -/
theorem Call.perform_run (c : Call) (o : Order) :
    c.perform o =
      match c.after o with
      | .ok o' => .ok o'.status o'
      | .error f => .error f o := by
  cases c with
  | cancel =>
      simp only [Call.perform, Call.after, Order.cancel, shift_run]
      cases o.advance .cancel <;> rfl
  | reject =>
      simp only [Call.perform, Call.after, Order.reject, shift_run]
      cases o.advance .reject <;> rfl
  | fill q =>
      simp only [Call.perform, Call.after, Order.fill, Attempt.run_bind, Attempt.run_get]
      by_cases hq : q ≤ 0 ∨ o.remaining < q
      · rw [if_pos hq, if_pos hq]
        rfl
      · rw [if_neg hq, if_neg hq, Attempt.run_bind, shift_run]
        unfold advance
        cases o.status.advance (if q.SameValue o.remaining then .fill else .partialFill) with
        | error v => rfl
        | ok s =>
            -- The status is written by now; the difference in `fill` must not fail.
            have hpos : 0 < q := Int.not_le.mp fun hle => hq (Or.inl hle)
            have hle : q ≤ o.remaining := Int.not_lt.mp fun hlt => hq (Or.inr hlt)
            obtain ⟨r, hr⟩ := Decimal.sub_isOk (Int.le_of_lt hpos) hle
            simp only [Except.map, hr, orFault]
            rfl

theorem Call.perform_eq_ok (h : c.perform o = .ok s o') : c.after o = .ok o' ∧ s = o'.status := by
  rw [perform_run] at h
  cases hafter : c.after o with
  | error f =>
      rw [hafter] at h
      cases h
  | ok o₁ =>
      rw [hafter] at h
      cases h
      exact ⟨rfl, rfl⟩

theorem reject_eq (o : Order) :
    o.reject =
      if o.status = .new then .ok { o with status := .rejected }
      else .error (.illegalTransition o.status .reject) := by
  unfold reject advance
  cases o.status <;> rfl

/-- All that `after` can do to an order. -/
theorem Call.after_cases (h : c.after o = .ok o') :
    (∃ q, c = .fill q ∧ o.fill q = .ok o') ∨
      (c = .cancel ∧ o.status.isLive = true ∧ o' = { o with status := .cancelled }) ∨
      (c = .reject ∧ o.status = .new ∧ o' = { o with status := .rejected }) := by
  cases c with
  | fill q => exact Or.inl ⟨q, rfl, h⟩
  | cancel =>
      rw [Call.after, cancel_eq] at h
      split at h
      · next hlive =>
          cases h
          exact Or.inr (Or.inl ⟨rfl, hlive, rfl⟩)
      · cases h
  | reject =>
      rw [Call.after, reject_eq] at h
      split at h
      · next hnew =>
          cases h
          exact Or.inr (Or.inr ⟨rfl, hnew, rfl⟩)
      · cases h

/-- Only a broken rule can object to a call. -/
theorem Call.after_error (h : c.after o = .error f) : ∃ v, f = .violation v := by
  cases c with
  | fill q => exact fill_error h
  | cancel =>
      rw [Call.after, cancel_eq] at h
      split at h <;> cases h
      exact ⟨_, rfl⟩
  | reject =>
      rw [Call.after, reject_eq] at h
      split at h <;> cases h
      exact ⟨_, rfl⟩

theorem Call.after_same (h : c.after o = .ok o') : Same o o' ∧ o'.quantity = o.quantity := by
  obtain ⟨q, -, hf⟩ | ⟨-, -, rfl⟩ | ⟨-, -, rfl⟩ := after_cases h
  · exact ⟨fill_same hf, fill_quantity hf⟩
  · exact ⟨⟨rfl, rfl, rfl, rfl, rfl, rfl, rfl, rfl⟩, rfl⟩
  · exact ⟨⟨rfl, rfl, rfl, rfl, rfl, rfl, rfl, rfl⟩, rfl⟩

theorem Call.after_remaining_le (h : c.after o = .ok o') : o'.remaining ≤ o.remaining := by
  obtain ⟨q, -, hf⟩ | ⟨-, -, rfl⟩ | ⟨-, -, rfl⟩ := after_cases h
  · exact fill_remaining_le hf
  · exact Int.le_refl _
  · exact Int.le_refl _

theorem Call.after_sized (h : c.after o = .ok o') (hs : o.Sized) : o'.Sized := by
  refine ⟨?_, ?_⟩
  · obtain ⟨q, -, hf⟩ | ⟨-, -, rfl⟩ | ⟨-, -, rfl⟩ := after_cases h
    · exact fill_remaining_nonneg hf
    · exact hs.nonneg
    · exact hs.nonneg
  · rw [(after_same h).2]
    exact Int.le_trans (after_remaining_le h) hs.le

theorem Call.isLive_of_after (h : c.after o = .ok o') : o.status.isLive = true := by
  obtain ⟨q, -, hf⟩ | ⟨-, hlive, -⟩ | ⟨-, hnew, -⟩ := after_cases h
  · exact (fill_eq_ok hf).2.2.1
  · exact hlive
  · rw [hnew]
    rfl

theorem Call.after_ne_new (h : c.after o = .ok o') : o'.status ≠ .new := by
  obtain ⟨q, -, hf⟩ | ⟨-, -, rfl⟩ | ⟨-, -, rfl⟩ := after_cases h
  · rw [fill_status hf]
    split <;> decide
  · exact nofun
  · exact nofun

/-! ## Any number of calls -/

/-- The order tells what has been called since it was the order `start`: the log decides its status
as far as that goes, and what is left of it decides the rest. -/
structure InStep (start : Order) (log : Log) (o : Order) : Prop where
  same : Same start o
  quantity_eq : o.quantity = start.quantity
  sized : o.Sized
  filled_iff : o.status = .filled ↔ o.remaining.SameValue 0
  new_iff : o.status = .new ↔ ∀ c s, (c, .ok s) ∉ log
  unfilled_of_rejected : o.status = .rejected → ∀ q s, (.fill q, .ok s) ∉ log

namespace InStep

variable {start : Order} {log : Log}

/-- What is left decides between `filled` and the other statuses after a successful call as it did
before. -/
theorem filled_iff_of_after (h : InStep start log o) (hc : c.after o = .ok o') :
    o'.status = .filled ↔ o'.remaining.SameValue 0 := by
  have hlive := Call.isLive_of_after hc
  have hleft : ¬ o.remaining.SameValue 0 := fun hz => by
    rw [h.filled_iff.mpr hz] at hlive
    cases hlive
  obtain ⟨q, -, hf⟩ | ⟨-, -, rfl⟩ | ⟨-, -, rfl⟩ := Call.after_cases hc
  · exact fill_filled_iff hf
  · exact iff_of_false (by simp) hleft
  · exact iff_of_false (by simp) hleft

/-- A call that succeeds keeps an order `InStep`. -/
theorem succeeded (h : InStep start log o) (hc : c.after o = .ok o') :
    InStep start (log ++ [(c, .ok o'.status)]) o' where
  same := h.same.trans (Call.after_same hc).1
  quantity_eq := (Call.after_same hc).2.trans h.quantity_eq
  sized := Call.after_sized hc h.sized
  filled_iff := h.filled_iff_of_after hc
  new_iff := by
    refine iff_of_false (Call.after_ne_new hc) fun hnone => ?_
    exact hnone c o'.status (List.mem_append_right _ (List.mem_singleton.mpr rfl))
  unfilled_of_rejected := by
    intro hrejected q s hmem
    obtain ⟨q', -, hf⟩ | ⟨-, -, rfl⟩ | ⟨rfl, hnew, -⟩ := Call.after_cases hc
    · rw [fill_status hf] at hrejected
      split at hrejected <;> cases hrejected
    · cases hrejected
    · -- Only a new order can be rejected, and nothing has been filled of a new one.
      rcases List.mem_append.mp hmem with hbefore | hlast
      · exact h.new_iff.mp hnew _ _ hbefore
      · cases List.mem_singleton.mp hlast

/-- A call that fails keeps it in step too. -/
theorem failed (h : InStep start log o) (c : Call) (f : Fault) :
    InStep start (log ++ [(c, .error f)]) o := by
  have hsame (c' : Call) (s : OrderStatus) :
      (c', .ok s) ∈ log ++ [(c, .error f)] ↔ (c', .ok s) ∈ log := by
    simp
  exact { h with
    new_iff := by simpa only [hsame] using h.new_iff
    unfilled_of_rejected := by simpa only [hsame] using h.unfilled_of_rejected }

theorem perform (h : InStep start log o) (c : Call) :
    InStep start (log ++ [(c, (Attempt.outcome c.perform o).1)])
      (Attempt.outcome c.perform o).2 := by
  unfold Attempt.outcome
  rw [Call.perform_run]
  cases hc : c.after o with
  | ok o' => exact h.succeeded hc
  | error f => exact h.failed c f

theorem performAll (h : InStep start log o) (calls : List Call) :
    InStep start (log ++ (performAll calls o).1) (performAll calls o).2 := by
  induction calls generalizing log o with
  | nil =>
      rw [Order.performAll, List.append_nil]
      exact h
  | cons c calls ih =>
      have hrest := ih (h.perform c)
      rw [List.append_assoc] at hrest
      exact hrest

end InStep

/-- A new order of a positive quantity is `InStep` with the empty log. -/
theorem inStep_ofIntent (id : OrderId) (now : Timestamp) {intent : OrderIntent}
    (h : 0 < intent.quantity) : InStep (ofIntent id now intent) [] (ofIntent id now intent) where
  same := Same.refl _
  quantity_eq := rfl
  sized := ⟨Int.le_of_lt h, Int.le_refl _⟩
  filled_iff := iff_of_false (by simp [ofIntent]) fun hz => Int.ne_of_gt h hz
  new_iff := iff_of_true rfl fun _ _ => List.not_mem_nil
  unfilled_of_rejected := fun _ _ _ => List.not_mem_nil

theorem performAll_remaining_le (calls : List Call) (o : Order) :
    (performAll calls o).2.remaining ≤ o.remaining := by
  induction calls generalizing o with
  | nil => exact Int.le_refl _
  | cons c calls ih =>
      refine Int.le_trans (ih _) ?_
      unfold Attempt.outcome
      rw [Call.perform_run]
      cases hc : c.after o with
      | ok o' => exact Call.after_remaining_le hc
      | error f => exact Int.le_refl _

/-- All that is called after the end fails, and leaves the order alone. -/
theorem performAll_of_isTerminal (h : o.status.isTerminal = true) (calls : List Call) :
    (performAll calls o).2 = o ∧ ∀ c s, (c, .ok s) ∉ (performAll calls o).1 := by
  induction calls with
  | nil => exact ⟨rfl, fun _ _ => List.not_mem_nil⟩
  | cons c calls ih =>
      obtain ⟨f, hf⟩ : ∃ f, c.after o = .error f := by
        cases hc : c.after o with
        | error f => exact ⟨f, rfl⟩
        | ok o' =>
            rw [OrderStatus.isTerminal_eq_not_isLive, Call.isLive_of_after hc] at h
            cases h
      have hout : Attempt.outcome c.perform o = (.error f, o) := by
        rw [Attempt.outcome, Call.perform_run, hf]
      rw [performAll, hout]
      refine ⟨ih.1, fun c' s hmem => ?_⟩
      rcases List.mem_cons.mp hmem with heq | hrest
      · cases heq
      · exact ih.2 c' s hrest

/-! ## What an order in step answers -/

/-- How an order answers whatever is called next. -/
structure Answers (o : Order) : Prop where
  /-- `perform` answers with the status the order then has, or objects and leaves it exactly as it
  was. -/
  answer : ∀ c : Call, match c.perform o with
    | .ok s o' => c.after o = .ok o' ∧ s = o'.status
    | .error f o' => c.after o = .error f ∧ (∃ v, f = .violation v) ∧ o' = o
  fill_iff : ∀ q, (∃ s o', (Call.fill q).perform o = .ok s o') ↔
    (o.status = .new ∨ o.status = .partiallyFilled) ∧ 0 < q ∧ q ≤ o.remaining
  remaining_le : ∀ calls, (performAll calls o).2.remaining ≤ o.remaining
  terminal : o.status.isTerminal = true →
    ∀ calls, (performAll calls o).2 = o ∧ ∀ c s, (c, .ok s) ∉ (performAll calls o).1

theorem answers (o : Order) : Answers o where
  answer := by
    intro c
    rw [Call.perform_run]
    cases hc : c.after o with
    | ok o' => exact ⟨rfl, rfl⟩
    | error f => exact ⟨rfl, Call.after_error hc, rfl⟩
  fill_iff := by
    intro q
    rw [← OrderStatus.isLive_iff]
    constructor
    · rintro ⟨s, o', h⟩
      obtain ⟨hpos, hle, hlive, -⟩ := fill_eq_ok (Call.perform_eq_ok h).1
      exact ⟨hlive, hpos, hle⟩
    · rintro ⟨hlive, hpos, hle⟩
      obtain ⟨o', ho'⟩ := fill_isOk hpos hle hlive
      exact ⟨o'.status, o', by rw [Call.perform_run, Call.after, ho']⟩
  remaining_le := fun calls => performAll_remaining_le calls o
  terminal := performAll_of_isTerminal

/-- Whatever is called on an order of a positive quantity, its status and what is left of it stay
`InStep`, and it `Answers` each further call as they tell. -/
theorem status_tells_remaining (id : OrderId) (now : Timestamp) (intent : OrderIntent)
    (h : 0 < intent.quantity) (calls : List Call) :
    InStep (ofIntent id now intent) (performAll calls (ofIntent id now intent)).1
        (performAll calls (ofIntent id now intent)).2 ∧
      Answers (performAll calls (ofIntent id now intent)).2 :=
  ⟨(inStep_ofIntent id now h).performAll calls, answers _⟩

/-- A fill so small that it is rounded away leaves all of the order but makes it a partly filled
one, which a rejection cannot touch any more; what is left can be filled to the last, and then
nothing is left to cancel. -/
theorem status_tells_remaining_dusted :
    let quintillion := .scaled 1000000000000000000 0
    let order := ofIntent ⟨.ofNat 1⟩ .millennium (.limit "X" .sell 1 quintillion)
    let calls := [.fill (.scaled 1 11), .reject, .fill quintillion, .cancel]
    (performAll (calls.take 1) order).2.remaining.SameValue order.quantity ∧
      (performAll calls order).1.map (fun entry => entry.2.toOption) =
        [some .partiallyFilled, none, some .filled, none] ∧
      InStep order (performAll calls order).1 (performAll calls order).2 ∧
      Answers (performAll calls order).2 :=
  ⟨by decide +kernel, by decide +kernel, status_tells_remaining _ _ _ (by decide +kernel) _⟩

end Order

end Bourse
