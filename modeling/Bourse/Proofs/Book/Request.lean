import Bourse.Proofs.Book.Insertion
import Bourse.Proofs.Table

/-!
# Books and whoever asks of them

Everything that can be done to a book is a `Request`. A book is asked one after the other,
and what has stopped a request does not stop the next. What is kept when an order comes,
goes, is filled or lessened is kept by all requests (`keeps_request`), and so holds of
every book that can be `Reached`: it is `Sound`, and its index has no key twice.
-/

namespace Bourse

open Attempt (Keeps keeps_pure keeps_get keeps_violate keeps_modify keeps_bind)

namespace Book

/-- What can be asked of a book. -/
inductive Request where
  | insert (o : Order)
  | cancel (id : OrderId)
  | take (id : OrderId)
  | removeFilled (id : OrderId)
  | fillBest (side : Side) (q : Quantity)
  | reduce (id : OrderId) (q : Quantity)

/-- Puts a request to a book. It is answered with the order it was about, or with none if that is
not found. -/
def Request.run : Request → Attempt Book (Option Order)
  | .insert o => do
    Book.insert o
    return some o
  | .cancel id => Book.cancel id
  | .take id => Book.take id
  | .removeFilled id => return some (← Book.removeFilled id)
  | .fillBest side q => return some (← Book.fillBest side q)
  | .reduce id q => return some (← Book.reduce id q)

/-- The book after a request, whatever has stopped it. -/
def Request.after (r : Request) (b : Book) : Book := (Attempt.outcome r.run b).2

/-- The book a number of `admissible` requests have made of an empty one. -/
inductive Reached (admissible : Request → Prop) (symbol : String) : Nat → Book → Prop
  | empty : Reached admissible symbol 0 (.empty symbol)
  | ask {n : Nat} {b : Book} (r : Request) : admissible r → Reached admissible symbol n b →
      Reached admissible symbol (n + 1) (r.after b)

/-- The book after a number of requests to an empty one. -/
def afterAll (symbol : String) (rs : List Request) : Book :=
  rs.foldl (fun b r => r.after b) (.empty symbol)

section Reached

variable {admissible : Request → Prop} {symbol : String} {n : Nat} {b : Book} {rs : List Request}

theorem Reached.more (h : Reached admissible symbol n b) (hrs : ∀ r ∈ rs, admissible r) :
    Reached admissible symbol (n + rs.length) (rs.foldl (fun b r => r.after b) b) := by
  induction rs generalizing n b with
  | nil => exact h
  | cons r rest ih =>
      have hnext := ih (h.ask r (hrs r List.mem_cons_self))
        fun r' hr' => hrs r' (List.mem_cons_of_mem _ hr')
      rw [List.length_cons, Nat.add_comm rest.length 1, ← Nat.add_assoc]
      exact hnext

theorem Reached.all (hrs : ∀ r ∈ rs, admissible r) :
    Reached admissible symbol rs.length (afterAll symbol rs) :=
  Nat.zero_add rs.length ▸ Reached.empty.more hrs

end Reached

section Run

variable {b : Book} {α : Type}

/-- To give an answer changes nothing. -/
theorem run_answer (act : Attempt Book α) (answer : α → Option Order) (b : Book) :
    (act >>= fun a => pure (answer a)) b =
      match act b with
      | .ok a b' => .ok (answer a) b'
      | .error f b' => .error f b' := by
  rw [Attempt.run_bind]
  cases act b <;> rfl

theorem run_insert (o : Order) (b : Book) :
    (Request.insert o).run b =
      match insert o b with
      | .ok _ b' => .ok (some o) b'
      | .error f b' => .error f b' := by
  refine (run_answer (insert o) (fun _ => some o) b).trans ?_
  cases insert o b <;> rfl

theorem run_removeFilled (id : OrderId) (b : Book) :
    (Request.removeFilled id).run b =
      match removeFilled id b with
      | .ok o b' => .ok (some o) b'
      | .error f b' => .error f b' := by
  refine (run_answer (removeFilled id) some b).trans ?_
  cases removeFilled id b <;> rfl

theorem run_fillBest (side : Side) (q : Quantity) (b : Book) :
    (Request.fillBest side q).run b =
      match fillBest side q b with
      | .ok o b' => .ok (some o) b'
      | .error f b' => .error f b' := by
  refine (run_answer (fillBest side q) some b).trans ?_
  cases fillBest side q b <;> rfl

theorem run_reduce (id : OrderId) (q : Quantity) (b : Book) :
    (Request.reduce id q).run b =
      match reduce id q b with
      | .ok o b' => .ok (some o) b'
      | .error f b' => .error f b' := by
  refine (run_answer (reduce id q) some b).trans ?_
  cases reduce id q b <;> rfl

end Run

/-! ## Requests that find no order -/

section Absent

variable {b : Book} {id : OrderId} {side : Side}

theorem take_absent (h : b.Sound) (hid : ¬ b.Has id) : take id b = .ok none b := by
  unfold take
  rw [Attempt.run_bind, Attempt.run_get]
  dsimp only
  rw [h.index_none.mpr hid]
  rfl

theorem removeFilled_absent (h : b.Sound) (hid : ¬ b.Has id) :
    removeFilled id b = .error (.violation (.unknownOrder id)) b := by
  have hnone : b.get? id = none := by
    cases hget : b.get? id with
    | none => rfl
    | some o =>
        obtain ⟨ho, rfl⟩ := h.get?_iff.mp hget
        exact absurd ⟨o, ho, rfl⟩ hid
  unfold removeFilled
  rw [Attempt.run_bind, Attempt.run_get]
  dsimp only
  rw [hnone]
  rfl

theorem reduce_absent (h : b.Sound) (hid : ¬ b.Has id) (q : Quantity) :
    reduce id q b = .error (.violation (.unknownOrder id)) b := by
  unfold reduce
  rw [Attempt.run_bind, Attempt.run_get]
  dsimp only
  rw [h.index_none.mpr hid]
  rfl

/-- Without an order at the front of the best level `fillBest` has nothing to fill. -/
theorem fillBest_absent (hnone : (b.ladder side).best?.bind Level.front? = none) (q : Quantity) :
    ∃ price, fillBest side q b = .error (.violation (.emptyLevel price)) b := by
  have hladder : ∃ price, Ladder.fillBest q (b.ladder side) =
      .error (.violation (.emptyLevel price)) (b.ladder side) := by
    unfold Ladder.fillBest
    rw [Attempt.run_bind, Attempt.run_get]
    dsimp only
    cases hl : (b.ladder side).levels with
    | nil => exact ⟨_, rfl⟩
    | cons level post =>
        have hfront : level.orders = [] := by
          unfold Ladder.best? at hnone
          rw [hl] at hnone
          exact List.head?_eq_none_iff.mp hnone
        dsimp only
        rw [Attempt.run_focus, Level.fillFront_run, hfront]
        dsimp only
        rw [← hl]
        exact ⟨_, rfl⟩
  obtain ⟨price, hrun⟩ := hladder
  refine ⟨price, ?_⟩
  rw [fillBest_run, onSide_run, hrun]
  dsimp only
  rw [setLadder_self]

/-- The order at the front of the best level. -/
theorem front_eq_some {o : Order} :
    (b.ladder side).best?.bind Level.front? = some o ↔
      ∃ level post ys, (b.ladder side).levels = level :: post ∧ level.orders = o :: ys := by
  unfold Ladder.best? Level.front?
  cases (b.ladder side).levels with
  | nil => simp
  | cons level post =>
      cases hx : level.orders with
      | nil => simp [hx]
      | cons x ys => simp [hx]

end Absent

/-! ## What all requests keep -/

section Keeps

variable {P : Book → Prop}

theorem keeps_cancel {id : OrderId} (h : Keeps P (take id)) : Keeps P (cancel id) := by
  unfold cancel
  refine keeps_bind h fun r => ?_
  cases r <;> exact keeps_pure _

theorem keeps_removeFilled {id : OrderId} (h : Keeps P (take id)) : Keeps P (removeFilled id) := by
  unfold removeFilled
  refine keeps_bind keeps_get fun b => ?_
  split
  · exact keeps_violate _
  · split
    · exact keeps_violate _
    · refine keeps_bind h fun r => ?_
      cases r with
      | none => exact keeps_violate _
      | some o => exact keeps_pure _

/-- What `insert`, `take`, `fillBest` and `reduce` keep is kept by every request. -/
theorem keeps_request (hinsert : ∀ o, Keeps P (insert o)) (htake : ∀ id, Keeps P (take id))
    (hfill : ∀ side q, Keeps P (fillBest side q)) (hreduce : ∀ id q, Keeps P (reduce id q))
    (r : Request) : Keeps P r.run := by
  cases r with
  | insert o => exact keeps_bind (hinsert o) fun _ => keeps_pure _
  | cancel id => exact keeps_cancel (htake id)
  | take id => exact htake id
  | removeFilled id => exact keeps_bind (keeps_removeFilled (htake id)) fun _ => keeps_pure _
  | fillBest side q => exact keeps_bind (hfill side q) fun _ => keeps_pure _
  | reduce id q => exact keeps_bind (hreduce id q) fun _ => keeps_pure _

theorem Reached.of_keeps {admissible : Request → Prop} {symbol : String} {n : Nat} {b : Book}
    (h : Reached admissible symbol n b) (hempty : P (.empty symbol))
    (hkeeps : ∀ r : Request, Keeps P r.run) : P b := by
  induction h with
  | empty => exact hempty
  | ask r _ _ ih => exact hkeeps r _ ih

end Keeps

/-! ## The book stays sound -/

section Sound

theorem sound_insert (o : Order) : Keeps Sound (insert o) := by
  intro b h
  refine Attempt.outcome_state ?_
  have hins := inserted h o
  generalize insert o b = result at hins
  cases hins with
  | refused _ => exact h
  | opened _ _ _ _ _ hopen => exact (hopen.kept h).sound
  | overflowed _ _ _ => exact h
  | put _ _ _ _ _ harr => exact harr.sound

theorem sound_take (id : OrderId) : Keeps Sound (take id) := by
  intro b h
  refine Attempt.outcome_state ?_
  by_cases hid : b.Has id
  · obtain ⟨o, ho, rfl⟩ := hid
    have htake := take_outcome h ho
    cases hrun : take o.id b with
    | error f b' =>
        rw [hrun] at htake
        exact htake.sound
    | ok r b' =>
        rw [hrun] at htake
        exact htake.2.sound
  · rw [take_absent h hid]
    exact h

theorem sound_fillBest (side : Side) (q : Quantity) : Keeps Sound (fillBest side q) := by
  intro b h
  refine Attempt.outcome_state ?_
  cases hfront : (b.ladder side).best?.bind Level.front? with
  | none =>
      obtain ⟨price, hrun⟩ := fillBest_absent hfront q
      rw [hrun]
      exact h
  | some o =>
      obtain ⟨level, post, ys, hl, hx⟩ := front_eq_some.mp hfront
      have hfill := fillBest_cases h hl hx q
      split at hfill
      · rw [hfill]
        exact h
      · split at hfill
        · obtain ⟨b', -, hw, hrun⟩ := hfill
          rw [hrun]
          exact hw.sound
        · split at hfill
          · obtain ⟨_, b', -, -, hdep, hrun⟩ := hfill
            rw [hrun]
            exact hdep.sound
          · obtain ⟨b', -, hw, hrun⟩ := hfill
            rw [hrun]
            exact hw.sound

theorem sound_reduce (id : OrderId) (q : Quantity) : Keeps Sound (reduce id q) := by
  intro b h
  refine Attempt.outcome_state ?_
  by_cases hid : b.Has id
  · obtain ⟨o, ho, rfl⟩ := hid
    have hred := reduce_outcome h ho q
    cases hrun : reduce o.id q b with
    | error f b' =>
        rw [hrun] at hred
        rcases hred with rfl | ⟨-, -, o', -, hw⟩
        · exact h
        · exact hw.sound
    | ok o' b' =>
        rw [hrun] at hred
        exact hred.2.2.2.sound
  · rw [reduce_absent h hid]
    exact h

/-- Whatever a book has been asked, it is `Sound`, and stopping half way does not change that. -/
theorem Reached.sound {admissible : Request → Prop} {symbol : String} {n : Nat} {b : Book}
    (h : Reached admissible symbol n b) : b.Sound :=
  h.of_keeps (sound_empty symbol)
    (keeps_request sound_insert sound_take sound_fillBest sound_reduce)

end Sound

/-! ## The index has no key twice -/

section Keyed

/-- The index has no key twice. -/
def Keyed (b : Book) : Prop := b.index.Keyed

/-- Whatever `onSide` does to a ladder, the index has no part in it. -/
theorem keyed_onSide {α : Type} (side : Side) (act : Attempt Ladder α) :
    Keeps Keyed (onSide side act) := by
  intro b hb
  have hset (l : Ladder) : (b.setLadder l side).Keyed := by
    unfold Keyed
    rw [index_setLadder]
    exact hb
  refine Attempt.outcome_state ?_
  rw [onSide_run]
  cases act (b.ladder side) <;> exact hset _

theorem keyed_insert (o : Order) : Keeps Keyed (insert o) := by
  unfold insert
  refine keeps_bind keeps_get fun b => ?_
  split
  · exact keeps_violate _
  · split
    · exact keeps_bind (keyed_onSide _ _) fun _ => keeps_modify fun _ hb => hb.insert _ _
    · exact keeps_violate _

theorem keyed_take (id : OrderId) : Keeps Keyed (take id) := by
  unfold take
  refine keeps_bind keeps_get fun b => ?_
  split
  · exact keeps_pure _
  · exact keeps_bind (keeps_modify fun _ hb => hb.erase _) fun _ => keyed_onSide _ _

theorem keyed_fillBest (side : Side) (q : Quantity) : Keeps Keyed (fillBest side q) := by
  unfold fillBest
  refine keeps_bind (keyed_onSide _ _) fun maker => ?_
  split
  · exact keeps_bind (keeps_removeFilled (keyed_take _)) fun _ => keeps_pure _
  · exact keeps_pure _

theorem keyed_reduce (id : OrderId) (q : Quantity) : Keeps Keyed (reduce id q) := by
  unfold reduce
  refine keeps_bind keeps_get fun b => ?_
  split
  · split
    · exact keeps_violate _
    · refine keeps_bind (keyed_onSide _ _) fun r => ?_
      cases r with
      | none => exact keeps_violate _
      | some o => exact keeps_pure _
  · exact keeps_violate _

theorem Reached.keyed {admissible : Request → Prop} {symbol : String} {n : Nat} {b : Book}
    (h : Reached admissible symbol n b) : b.Keyed :=
  h.of_keeps Table.keyed_empty (keeps_request keyed_insert keyed_take keyed_fillBest keyed_reduce)

end Keyed

end Book

end Bourse
