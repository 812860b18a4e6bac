import Bourse.Proofs.Engine.Calls
import Bourse.Proofs.Book.Apart

/-!
# Parted books

A `Parted` book has its bids below its asks and no level without orders. No operation that
comes to its end can undo that, however large or fine the quantities are: an order rests
only where nothing across suits it. So it is never a crossed book that stops a call
(`Parted.isCrossed_eq`).
-/

namespace Bourse

namespace Book

/-- The book is `Apart` and `Packed`: its bids are below its asks, and every level has orders. -/
structure Parted (b : Book) : Prop where
  sound : b.Sound
  apart : b.Apart
  packed : b.Packed

variable {b b' : Book} {o : Order}

theorem Parted.isCrossed_eq (h : b.Parted) : b.isCrossed = false :=
  h.apart.isCrossed_eq h.sound h.packed

theorem Parted.take (h : b.Parted) (ho : b.Holds o) {r : Option Order}
    (htake : take o.id b = .ok r b') : b'.Parted := by
  obtain ⟨level, -, xs, ys, -, hcases⟩ := take_cases h.sound ho
  split at hcases
  · obtain ⟨_, -, -, hrun⟩ := hcases
    rw [hrun] at htake
    cases htake
  · obtain ⟨_, hx, hdep, hrun⟩ := hcases
    rw [hrun] at htake
    cases htake
    exact ⟨hdep.sound, h.apart.worn (.of_departed hdep),
      h.packed.exchanged hx fun l hl => Level.kept_ne_nil hl⟩

theorem Parted.reduce (h : b.Parted) (ho : b.Holds o) {q : Quantity} {o' : Order}
    (hred : reduce o.id q b = .ok o' b') : b'.Parted := by
  have hout := reduce_outcome h.sound ho q
  rw [hred] at hout
  obtain ⟨hpos, hle, hset, hrew⟩ := hout
  have hsame := Order.same_of_setRemaining hset
  refine ⟨hrew.sound, h.apart.rewritten hrew ho hsame, ?_⟩
  obtain ⟨level, -, xs, ys, -, hcases⟩ := reduce_cases h.sound ho q
  rw [if_neg (by rintro (hq | hq); exact Int.not_lt.mpr hq hpos; exact Int.not_lt.mpr hle hq),
    hset] at hcases
  dsimp only at hcases
  split at hcases
  · obtain ⟨_, -, -, hrun⟩ := hcases
    rw [hred] at hrun
    cases hrun
  · split at hcases
    · obtain ⟨_, -, -, hrun⟩ := hcases
      rw [hred] at hrun
      cases hrun
    · obtain ⟨_, hx, -, hrun⟩ := hcases
      rw [hred] at hrun
      cases hrun
      refine h.packed.exchanged hx fun l hl => ?_
      rw [List.mem_singleton.mp hl]
      simp

theorem Parted.insert (h : b.Parted) (htype : o.orderType = .limit)
    {price : Price} (hprice : o.price = some price) (hpos : 0 < o.remaining) (hfree : ¬ b.Has o.id)
    (hseq : ∀ x ∈ (b.ladder o.side).orders, x.sequence ≠ o.sequence)
    (hcross : ∀ x ∈ (b.ladder o.side.opposite).orders, ∀ p, x.price = some p → ¬ o.Crosses p)
    (hins : insert o b = .ok ⟨⟩ b') : b'.Parted := by
  obtain ⟨_, _, -, hcases⟩ := insert_cases h.sound htype hprice hpos hfree hseq
  split at hcases
  · obtain ⟨_, -, -, hrun⟩ := hcases
    rw [hrun] at hins
    cases hins
  · obtain ⟨_, _, _, -, hx, harr, hrun⟩ := hcases
    rw [hrun] at hins
    cases hins
    refine ⟨harr.sound, h.apart.arrived harr hcross, h.packed.exchanged hx fun l hl => ?_⟩
    rw [List.mem_singleton.mp hl]
    simp

end Book

namespace Encounter

variable {e e' : Encounter} {fill : Fill} {level : Level} {post : List Level} {maker : Order}
  {ys : List Order} {total : Quantity} {moments : List (Encounter × Fill)}

theorem Deal.parted (h : Deal e fill e' level post maker ys total) (hb : e.book.Parted) :
    e'.book.Parted := by
  have hw := h.worn hb.sound
  refine ⟨hw.sound, hb.apart.worn hw, ?_⟩
  have hbook := h.book
  split at hbook
  · obtain ⟨_, -, hx, -⟩ := hbook
    exact hb.packed.exchanged hx fun l hl => Level.kept_ne_nil hl
  · refine hb.packed.exchanged hbook.1 fun l hl => ?_
    rw [List.mem_singleton.mp hl]
    simp

theorem Trades.parted (h : Trades e moments e') (hb : e.book.Parted) : e'.book.Parted := by
  induction h with
  | none => exact hb
  | some hstep _ ih =>
      obtain ⟨_, _, _, _, _, hdeal⟩ := hstep.deal hb.sound
      exact ih (hdeal.parted hb)

end Encounter

namespace Desk

variable {world : Surroundings} {o : Order} {d d' : Desk} {r : OrderResult}

theorem Executed.parted (h : Executed world o d r d') (hent : Enters o d) (hb : d.book.Parted) :
    d'.book.Parted := by
  cases h with
  | killed _ _ hbook _ _ =>
      rw [hbook]
      exact hb
  | matched _ hm hstop _ hset _ _ =>
      have hs := hb.sound
      have hb' := hm.parted hb
      generalize d'.book = b at hset ⊢
      cases hset with
      | done _ => exact hb'
      | dropped _ _ _ => exact hb'
      | rests hpos hwaits hins =>
          obtain ⟨⟨price, hprice⟩, hfree, hseq⟩ :=
            hent.insertable (hm.filled hs) (hm.worn hs) hwaits.1
          exact hb'.insert hwaits.1 hprice hpos hfree hseq
            (hstop.not_crosses hb'.sound hb'.packed hpos) hins

theorem Modified.parted {id : OrderId} {request : ModifyRequest} {r : ModifyResult}
    (h : Modified world id request d r d') (hready : d.Ready) (hb : d.book.Parted)
    (hq : 0 < request.quantity) : d'.book.Parted := by
  cases h with
  | absent _ => exact hb
  | same _ _ _ _ => exact hb
  | lessened ho hid _ _ hred _ _ _ _ _ =>
      subst hid
      exact hb.reduce ho hred
  | @requeued o o' b r d' ho hid _ htake hdep hset hexec =>
      subst hid
      have hent := hready.enters ho (Int.le_of_lt hq) hdep hset
      have hparted : Book.Parted (d.rearrived b).book := hb.take ho htake
      exact (executed_of_ok hent.sound hexec).parted hent hparted

end Desk

end Bourse
