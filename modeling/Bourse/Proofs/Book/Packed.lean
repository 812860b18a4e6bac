import Bourse.Proofs.Book.Balance
import Bourse.Proofs.Book.Refinement

/-!
# Books that refuse no insertion

Only an insertion that is refused can leave a level without orders behind. In a book with
room every other request takes a level away with its last order (`Solvent.packed_after`).
So while all that is to be inserted is let in, a book is `Packed`: the first level of a
side has the first order of its line, and a side without levels has no orders.
-/

namespace Bourse

open Attempt (Keeps keeps_pure keeps_bind)
open Decimal (halfUnit greatestAtoms)

namespace Book

/-- The request is no insertion, or it lets the order in. -/
def Request.Unrefused (b : Book) : Request → Prop
  | .insert o => ∃ b', Book.insert o b = .ok ⟨⟩ b'
  | _ => True

instance (b : Book) : DecidablePred (Request.Unrefused b)
  | .insert o =>
    match h : Book.insert o b with
    | .ok ⟨⟩ b' => isTrue ⟨b', h⟩
    | .error _ _ => isFalse fun ⟨_, hok⟩ => by rw [h] at hok; cases hok
  | .cancel _ => isTrue trivial
  | .take _ => isTrue trivial
  | .removeFilled _ => isTrue trivial
  | .fillBest _ _ => isTrue trivial
  | .reduce _ _ => isTrue trivial

/-- The book a number of `Plain` requests have made of an empty one, no insertion among them
refused. -/
inductive Grown (symbol : String) : Nat → Book → Prop
  | empty : Grown symbol 0 (.empty symbol)
  | ask {n : Nat} {b : Book} (r : Request) : r.Plain → r.Unrefused b → Grown symbol n b →
      Grown symbol (n + 1) (r.after b)

section Packed

variable {symbol : String} {n : Nat} {credit most : Int} {b b' : Book} {side : Side}
  {old : List Level} {price : Price} {xs : List Order} {total : Quantity}

/-- A level may come in if it has an order. -/
theorem Packed.rewrite (h : b.Packed) (hx : Exchanged side old [⟨price, xs, total⟩] b b')
    (hne : xs ≠ []) : b'.Packed :=
  h.exchanged hx fun l hl => by
    rw [List.mem_singleton.mp hl]
    exact hne

theorem keeps_packed_take (hcap : credit ≤ greatestAtoms) (id : OrderId) :
    Keeps (fun b => b.Packed ∧ b.Sound ∧ b.Solvent credit) (take id) := by
  rintro b ⟨hp, hs, hb⟩
  refine ⟨?_, sound_take id b hs, ?_⟩
  · refine Attempt.outcome_state ?_
    by_cases hid : b.Has id
    · obtain ⟨o, ho, rfl⟩ := hid
      obtain ⟨level, hl, xs, ys, hx, htake⟩ := take_cases hs ho
      obtain ⟨total, htotal⟩ := hb.sub_isOk hs hl hx (hb.lively o ho).2 (Int.le_refl _) hcap
      rw [htotal] at htake
      obtain ⟨b', hx', -, hrun⟩ := htake
      rw [hrun]
      exact hp.exchanged hx' fun l hl => Level.kept_ne_nil hl
    · rw [take_absent hs hid]
      exact hp
  · by_cases hid : b.Has id
    · obtain ⟨o, ho, rfl⟩ := hid
      have htake := hb.take hs ho
      refine Attempt.outcome_state ?_
      cases hrun : take o.id b with
      | error f b' =>
          rw [hrun] at htake
          exact htake
      | ok r b' =>
          rw [hrun] at htake
          exact htake
    · rw [Attempt.outcome_ok (take_absent hs hid)]
      exact hb

theorem keeps_packed_fillBest (side : Side) (q : Quantity) :
    Keeps (fun b => b.Packed ∧ b.Sound) (fillBest side q) := by
  rintro b ⟨hp, hs⟩
  refine ⟨Attempt.outcome_state ?_, sound_fillBest side q b hs⟩
  cases hfront : (b.ladder side).best?.bind Level.front? with
  | none =>
      obtain ⟨price, hrun⟩ := fillBest_absent hfront q
      rw [hrun]
      exact hp
  | some o =>
      obtain ⟨level, post, ys, hl, hx⟩ := front_eq_some.mp hfront
      have hfill := fillBest_cases hs hl hx q
      split at hfill
      · rw [hfill]
        exact hp
      · split at hfill
        · obtain ⟨b', hx', -, hrun⟩ := hfill
          rw [hrun]
          exact hp.rewrite hx' (List.cons_ne_nil _ _)
        · split at hfill
          · obtain ⟨_, b', -, hx', -, hrun⟩ := hfill
            rw [hrun]
            exact hp.exchanged hx' fun l hl => Level.kept_ne_nil hl
          · obtain ⟨b', hx', -, hrun⟩ := hfill
            rw [hrun]
            exact hp.rewrite hx' (List.cons_ne_nil _ _)

theorem keeps_packed_reduce (id : OrderId) (q : Quantity) :
    Keeps (fun b => b.Packed ∧ b.Sound) (reduce id q) := by
  rintro b ⟨hp, hs⟩
  refine ⟨Attempt.outcome_state ?_, sound_reduce id q b hs⟩
  by_cases hid : b.Has id
  · obtain ⟨o, ho, rfl⟩ := hid
    obtain ⟨level, -, xs, ys, -, hred⟩ := reduce_cases hs ho q
    have hne (o' : Order) : xs ++ o' :: ys ≠ [] :=
      List.append_ne_nil_of_right_ne_nil _ (List.cons_ne_nil _ _)
    split at hred
    · rw [hred]
      exact hp
    · split at hred
      · obtain ⟨b', hx', -, hrun⟩ := hred
        rw [hrun]
        exact hp.rewrite hx' (hne _)
      · split at hred
        · obtain ⟨b', hx', -, hrun⟩ := hred
          rw [hrun]
          exact hp.rewrite hx' (hne _)
        · split at hred <;>
          · obtain ⟨b', hx', -, hrun⟩ := hred
            rw [hrun]
            exact hp.rewrite hx' (hne _)
  · rw [reduce_absent hs hid]
    exact hp

/-- In a `Solvent` book a request that is `Unrefused` leaves no level without orders. -/
theorem Solvent.packed_after (hb : b.Solvent credit) (hs : b.Sound) (hp : b.Packed)
    (hcap : credit ≤ greatestAtoms) {r : Request} (hr : r.Unrefused b) : (r.after b).Packed := by
  have htake (id : OrderId) := keeps_packed_take hcap id
  cases r with
  | insert o =>
      obtain ⟨b', hrun⟩ := hr
      have hins := inserted hs o
      rw [hrun] at hins
      have hrun' : (Request.insert o).run b = .ok (some o) b' := by rw [run_insert, hrun]
      rw [Request.after, Attempt.outcome_ok hrun']
      cases hins with
      | put _ _ _ _ hx' _ =>
          exact hp.rewrite hx' (List.append_ne_nil_of_right_ne_nil _ (List.cons_ne_nil _ _))
  | cancel id => exact (keeps_cancel (htake id) b ⟨hp, hs, hb⟩).1
  | take id => exact (htake id b ⟨hp, hs, hb⟩).1
  | removeFilled id =>
      exact (keeps_bind (keeps_removeFilled (htake id)) (fun _ => keeps_pure _) b ⟨hp, hs, hb⟩).1
  | fillBest side q =>
      exact (keeps_bind (keeps_packed_fillBest side q) (fun _ => keeps_pure _) b ⟨hp, hs⟩).1
  | reduce id q =>
      exact (keeps_bind (keeps_packed_reduce id q) (fun _ => keeps_pure _) b ⟨hp, hs⟩).1

theorem Grown.reached (h : Grown symbol n b) : Reached Request.Plain symbol n b := by
  induction h with
  | empty => exact .empty
  | ask r hr _ _ ih => exact ih.ask r hr

theorem packed_empty (symbol : String) : (Book.empty symbol).Packed :=
  fun side level hl => by cases side <;> cases hl

theorem Grown.packed (h : Grown symbol n b) (hn : n ≤ 10000000000) : b.Packed := by
  induction h with
  | empty => exact packed_empty symbol
  | @ask n b r _ hr h ih =>
      have hroomy := h.reached.roomy (Nat.le_of_lt hn)
      exact hroomy.solvent.packed_after h.reached.sound (ih (Nat.le_of_lt hn)) (reach_le hn).1 hr

end Packed

end Book

end Bourse
