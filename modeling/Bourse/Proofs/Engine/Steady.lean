import Bourse.Proofs.Engine.Lively
import Bourse.Proofs.Engine.Parted
import Bourse.Proofs.Matching.Balance

/-!
# Steady engines

A book is `Steady` when it is sound, balanced and apart. A call on a steady book comes to
its end and leaves the book steady, as long as the bounds of the balance stay within the
range of the decimals: they grow by the quantity that is sent in and by a `drift` that
depends on how many orders there are. So an engine meets no fault before its bounds have
grown that far, and what is crossed at rest is never found.
-/

namespace Bourse

/-- How much the `off` of a book may grow by a call, with so many orders on a side. -/
def Decimal.Precision.drift (p : Decimal.Precision) (count : Nat) : Int :=
  2 * (p.slack * count : Nat) + 4 * p.slack

namespace Book

/-- A book in order: its levels stand as they should, its sums are nearly right (`Balanced`), and
its bids are below its asks (`Apart`). -/
structure Steady (p : Decimal.Precision) (bound off : Int) (count : Nat) (b : Book) : Prop where
  sound : b.Sound
  balanced : b.Balanced p bound off count
  apart : b.Apart
  nonneg : 0 ≤ bound ∧ 0 ≤ off

section Steady

variable {p : Decimal.Precision} {bound bound' off off' : Int} {count count' : Nat} {b : Book}

theorem steady_empty (p : Decimal.Precision) (symbol : String) :
    (Book.empty symbol).Steady p 0 0 0 :=
  ⟨sound_empty symbol, balanced_empty p symbol, apart_empty symbol, by decide⟩

theorem Steady.mono (h : b.Steady p bound off count) (hb : bound ≤ bound') (ho : off ≤ off')
    (hc : count ≤ count') : b.Steady p bound' off' count' :=
  ⟨h.sound, h.balanced.mono hb ho hc, h.apart, Int.le_trans h.nonneg.1 hb,
    Int.le_trans h.nonneg.2 ho⟩

theorem Steady.parted (h : b.Steady p bound off count) : b.Parted :=
  ⟨h.sound, h.apart, h.balanced.packed⟩

theorem Steady.isCrossed_eq (h : b.Steady p bound off count) : b.isCrossed = false :=
  h.parted.isCrossed_eq

theorem Steady.sized (h : b.Steady p bound off count) {o : Order} (ho : b.Holds o) : o.Sized :=
  (h.balanced.fit o ho).sized

theorem Steady.live (h : b.Steady p bound off count) {o : Order} (ho : b.Holds o) :
    o.status.isLive = true := (h.balanced.fit o ho).live

end Steady

end Book

namespace Desk

section Execute

variable {p : Decimal.Precision} {bound off : Int} {count : Nat} {o : Order} {d : Desk}

/-- What is left of an order after its matching can rest. -/
theorem Enters.insert_steady {e' : Encounter} (h : Enters o d) (hfilled : o.Filled e'.incoming)
    (hw : Book.Worn d.book e'.book) (hb : e'.book.Steady p bound off count) (hstop : e'.Stops)
    (hfit : e'.incoming.Fit p (bound + o.remaining.atoms + off))
    (htype : e'.incoming.orderType = .limit) (hcap : bound + o.remaining.atoms + off ≤ p.cap) :
    ∃ b, Book.insert e'.incoming e'.book = .ok ⟨⟩ b ∧
      b.Steady p (bound + o.remaining.atoms) (off + p.slack) (count + 1) := by
  obtain ⟨⟨price, hprice⟩, hfree, hseq⟩ := h.insertable hfilled hw htype
  have hless : e'.incoming.remaining.atoms ≤ o.remaining.atoms := hfilled.remaining_le
  have hpos := hfit.pos
  have hnonneg := hb.nonneg
  -- What has traded away may be counted to the bound as if it still rested.
  have hsum : bound + (o.remaining.atoms - e'.incoming.remaining.atoms) +
      e'.incoming.remaining.atoms = bound + o.remaining.atoms := by omega
  have hroom : e'.book.Balanced p
      (bound + (o.remaining.atoms - e'.incoming.remaining.atoms)) off count :=
    hb.balanced.mono (by omega) (Int.le_refl off) (Nat.le_refl count)
  obtain ⟨b, hins, harr, hbal⟩ := hroom.insert hb.sound (hsum ▸ hfit) htype hprice hfree hseq
    ⟨by omega, hnonneg.2⟩ (hsum ▸ hcap)
  rw [hsum] at hbal
  refine ⟨b, hins, harr.sound, hbal, hb.apart.arrived harr ?_, by omega, by omega⟩
  exact hstop.not_crosses hb.sound hb.balanced.packed hpos

/-- What a matching leaves, with what is left of the order put in or not. -/
theorem Enters.matched_steady {moments : List (Encounter × Fill)} {e' : Encounter}
    (h : Enters o d) (hb : d.book.Steady p bound off count)
    (hfit : o.Fit p (bound + o.remaining.atoms + off))
    (hcap : bound + o.remaining.atoms + off + 2 * (p.slack * count : Nat) ≤ p.cap)
    (hm : Encounter.Trades ⟨o, d.book⟩ moments e') (hstop : e'.Stops) :
    e'.book.Steady p (bound + o.remaining.atoms) (off + 2 * (p.slack * count : Nat) + p.slack)
        (count + 1) ∧
      (0 < e'.incoming.remaining → Waits e'.incoming →
        ∃ b, Book.insert e'.incoming e'.book = .ok ⟨⟩ b ∧
          b.Steady p (bound + o.remaining.atoms) (off + 2 * (p.slack * count : Nat) + p.slack)
            (count + 1)) := by
  have hpos := hfit.pos
  have hs := hb.sound
  have hnonneg := hb.nonneg
  have hw := hm.worn hs
  have hcount := Nat.mul_le_mul_left p.slack
    (Nat.le_trans (hm.length_le hs) (hb.balanced.count_le o.side.opposite))
  obtain ⟨hbal, hleft⟩ := hm.balanced hs hb.balanced hfit (by omega) (by omega)
  have hb' : e'.book.Steady p bound (off + 2 * (p.slack * count : Nat)) count :=
    ⟨hw.sound, hbal.mono (Int.le_refl _) (by omega) (Nat.le_refl _), hb.apart.worn hw, by omega⟩
  refine ⟨hb'.mono (by omega) (by omega) (Nat.le_succ _), fun hpos' hwaits => ?_⟩
  have hfit' := hleft.resolve_left (Int.not_le.mpr hpos')
  exact h.insert_steady (hm.filled hs) hw hb' hstop (hfit'.mono (by omega)) hwaits.1 (by omega)

/-- `execute` in a `Steady` book comes to its end and leaves the book steady. -/
theorem execute_steady (world : Surroundings) (h : Enters o d)
    (hb : d.book.Steady p bound off count) (hfit : o.Fit p (bound + o.remaining.atoms + off))
    (hcap : bound + o.remaining.atoms + off + 2 * (p.slack * count : Nat) ≤ p.cap) :
    ∃ r d', execute .priceTime world o d = .ok r d' ∧
      d'.book.Steady p (bound + o.remaining.atoms) (off + 2 * (p.slack * count : Nat) + p.slack)
        (count + 1) := by
  have hpos := hfit.pos
  have hs := hb.sound
  obtain ⟨fills, e', hrun⟩ := Encounter.priceTime_isOk (e := ⟨o, d.book⟩) hs hb.balanced h.live
    hb.nonneg.1 (by omega)
  obtain ⟨moments, hm, -, hstop⟩ := Encounter.trades_of_priceTime hrun hs
  obtain ⟨r, d', hexec⟩ := execute_isOk world h (fun _ => hb.sized) hrun fun hpos hwaits =>
    have ⟨b, hins, _⟩ := (h.matched_steady hb hfit hcap hm hstop).2 hpos hwaits
    ⟨b, hins⟩
  refine ⟨r, d', hexec, ?_⟩
  cases executed_of_ok hs hexec with
  | killed _ _ hbook _ _ =>
      rw [hbook]
      have := hb.nonneg
      exact hb.mono (by omega) (by omega) (Nat.le_succ _)
  | matched _ hm hstop _ hset _ _ =>
      obtain ⟨hdone, hrest⟩ := h.matched_steady hb hfit hcap hm hstop
      generalize d'.book = b at hset ⊢
      cases hset with
      | done _ => exact hdone
      | dropped _ _ _ => exact hdone
      | rests hpos hwaits hins =>
          obtain ⟨b', hins', hsteady⟩ := hrest hpos hwaits
          rw [hins] at hins'
          cases hins'
          exact hsteady

end Execute

section Steady

variable {p : Decimal.Precision} {bound off : Int} {count : Nat} {d : Desk} {id : OrderId}

/-- `cancel` in a `Steady` book comes to its end. -/
theorem cancel_steady (world : Surroundings) (id : OrderId)
    (hb : d.book.Steady p bound off count) (hcap : bound + off ≤ p.cap) :
    ∃ r d', cancel world id d = .ok r d' ∧ d'.book.Steady p bound (off + p.slack) count := by
  have hnonneg := hb.nonneg
  rcases index_cases hb.sound id with ⟨o, ho, rfl⟩ | ⟨-, hnone⟩
  · obtain ⟨b, htake, hdep, hbal⟩ := hb.balanced.take hb.sound ho hcap
    have hsized : Order.Sized { o with status := .cancelled } :=
      ⟨(hb.sized ho).nonneg, (hb.sized ho).le⟩
    obtain ⟨u, -, hu⟩ := emitUpdate_isOk world hsized ({ d with book := b }.release o.id)
    have hsteady : b.Steady p bound (off + p.slack) count :=
      ⟨hdep.sound, hbal, hb.apart.worn (.of_departed hdep), by omega⟩
    rw [cancel_run, Book.cancel_run, htake]
    dsimp only
    rw [Order.cancel_eq, if_pos (hb.live ho)]
    dsimp only [Except.toOption]
    rw [hu]
    exact ⟨_, _, rfl, hsteady⟩
  · rw [cancel_absent world hnone]
    exact ⟨_, _, rfl, hb.mono (Int.le_refl _) (by omega) (Nat.le_refl _)⟩

/-- `lessen` of a resting order comes to its end. -/
theorem lessen_steady (world : Surroundings) {o : Order} {q : Quantity}
    (hb : d.book.Steady p bound off count) (ho : d.book.Holds o) (hq : 0 < q)
    (hle : q ≤ o.remaining) (hgrid : p.grid ∣ q.atoms)
    (hcap : bound + q.atoms + off + 2 * p.slack ≤ p.cap) :
    ∃ r d', lessen world o.id q d = .ok r d' ∧
      d'.book.Steady p (bound + q.atoms) (off + 2 * p.slack) count := by
  have hnonneg := hb.nonneg
  have hpos : (0 : Int) < q.atoms := hq
  obtain ⟨o', b, hred, hset, hrew, hbal⟩ := hb.balanced.reduce hb.sound ho hq hle hgrid hcap
  have hsized := Order.setRemaining_sized hset (hb.sized ho) (Int.le_of_lt hq)
  have hsame := Order.same_of_setRemaining hset
  obtain ⟨u, -, hu⟩ := emitUpdate_isOk world hsized { d with book := b }
  have hsteady : b.Steady p (bound + q.atoms) (off + 2 * p.slack) count :=
    ⟨hrew.sound, hbal, hb.apart.rewritten hrew ho hsame, by omega⟩
  rw [lessen_run, hred]
  dsimp only
  rw [hu]
  exact ⟨_, _, rfl, hsteady⟩

/-- `reenter` of a resting order comes to its end. -/
theorem reenter_steady (world : Surroundings) {o : Order} {q : Quantity} (price : Option Price)
    (hb : d.book.Steady p bound off count) (hready : d.Ready) (ho : d.book.Holds o) (hq : 0 < q)
    (hgrid : p.grid ∣ q.atoms) (hcap : bound + q.atoms + off + p.drift count ≤ p.cap) :
    ∃ r d', reenter .priceTime world o.id (price.or o.price) q d = .ok r d' ∧
      d'.book.Steady p (bound + q.atoms) (off + p.drift count) (count + 1) := by
  have hnonneg := hb.nonneg
  have hpos : (0 : Int) < q.atoms := hq
  unfold Decimal.Precision.drift at hcap ⊢
  obtain ⟨b, htake, hdep, hbal⟩ := hb.balanced.take hb.sound ho (by omega)
  have hfit := hb.balanced.fit o ho
  have hpriced : Order.Fit p (bound + off) { o with price := price.or o.price } :=
    ⟨hfit.live, hfit.pos, hfit.le, hfit.le_most, hfit.grid_remaining, hfit.grid_quantity⟩
  obtain ⟨o', hset, hfit', rfl⟩ := hpriced.setRemaining hq hgrid (by omega)
  have henters := hready.enters ho (Int.le_of_lt hq) hdep hset
  have hfit'' : Order.Fit p (bound + o'.remaining.atoms + (off + 2 * p.slack))
      { o' with sequence := d.counters.arrivals + 1 } :=
    ⟨hfit'.live, hfit'.pos, hfit'.le, Int.le_trans hfit'.le_most (by omega),
      hfit'.grid_remaining, hfit'.grid_quantity⟩
  have hsteady : b.Steady p bound (off + 2 * p.slack) count :=
    ⟨hdep.sound, hbal.mono (Int.le_refl _) (by omega) (Nat.le_refl _),
      hb.apart.worn (.of_departed hdep), by omega⟩
  obtain ⟨r, d', hexec, hdone⟩ := execute_steady (d := d.rearrived b) world henters hsteady hfit''
    (by dsimp only; omega)
  refine ⟨r, d', ?_, hdone.mono (Int.le_refl _) (by omega) (Nat.le_refl _)⟩
  rw [reenter_run, htake]
  dsimp only
  rw [hset]
  exact hexec

/-- `modifyOrder` in a `Steady` book comes to its end. -/
theorem modifyOrder_steady (world : Surroundings) (id : OrderId) (request : ModifyRequest)
    (hb : d.book.Steady p bound off count) (hready : d.Ready) (hq : 0 < request.quantity)
    (hgrid : p.grid ∣ request.quantity.atoms)
    (hcap : bound + request.quantity.atoms + off + p.drift count ≤ p.cap) :
    ∃ r d', modifyOrder .priceTime world id request d = .ok r d' ∧
      d'.book.Steady p (bound + request.quantity.atoms) (off + p.drift count) (count + 1) := by
  have hnonneg := hb.nonneg
  have hpos : (0 : Int) < request.quantity.atoms := hq
  have hslack : 2 * (p.slack : Int) ≤ p.drift count := by
    unfold Decimal.Precision.drift
    omega
  have hgrow : d.book.Steady p (bound + request.quantity.atoms) (off + p.drift count) (count + 1) :=
    hb.mono (by omega) (by omega) (Nat.le_succ _)
  rw [modifyOrder_run]
  cases hget : d.book.get? id with
  | none => exact ⟨_, _, rfl, hgrow⟩
  | some o =>
      obtain ⟨ho, rfl⟩ := hb.sound.get?_iff.mp hget
      dsimp only
      by_cases hsame : SamePrice (request.price.or o.price) o.price ∧
          request.quantity.SameValue o.remaining
      · rw [if_pos hsame]
        exact ⟨_, _, rfl, hgrow⟩
      · rw [if_neg hsame]
        by_cases hless : SamePrice (request.price.or o.price) o.price ∧
            request.quantity < o.remaining
        · obtain ⟨r, d', hrun, hsteady⟩ := lessen_steady world hb ho hq
            (Int.le_of_lt hless.2) hgrid (by omega)
          rw [if_pos hless, hrun]
          exact ⟨_, _, rfl, hsteady.mono (Int.le_refl _) (by omega) (Nat.le_succ _)⟩
        · obtain ⟨r, d', hrun, hsteady⟩ :=
            reenter_steady world request.price hb hready ho hq hgrid hcap
          rw [if_neg hless, hrun]
          exact ⟨_, _, rfl, hsteady⟩

end Steady

end Desk

namespace Engine

/-- Every book of the engine is steady. -/
structure Steady (p : Decimal.Precision) (bound off : Int) (count : Nat) (e : Engine) : Prop where
  sound : e.Sound
  book : e.Each fun _ b => b.Steady p bound off count

section Steady

variable {p : Decimal.Precision} {bound bound' off off' : Int} {count count' : Nat} {e : Engine}
  {i : Nat} {slot : Slot} {d : Desk}

theorem steady_empty (p : Decimal.Precision) : (Engine.empty .priceTime).Steady p 0 0 0 :=
  ⟨sound_empty, .empty _ _⟩

theorem Steady.mono (h : e.Steady p bound off count) (hb : bound ≤ bound') (ho : off ≤ off')
    (hc : count ≤ count') : e.Steady p bound' off' count' :=
  ⟨h.sound, h.book.mono fun _ _ hbook => hbook.mono hb ho hc⟩

theorem Steady.unmoved {e' : Engine} (h : e.Steady p bound off count) (hu : Unmoved e e') :
    e'.Steady p bound off count :=
  ⟨hu.sound h.sound, h.book.unmoved hu⟩

/-- Work that leaves its own book `Steady` leaves all of them steady. -/
theorem Steady.leave (h : e.Steady p bound off count) (hslot : e.slots[i]? = some slot)
    (hs : (e.leave i d).Sound) (hd : d.book.Steady p bound' off' count') (hb : bound ≤ bound')
    (ho : off ≤ off') (hc : count ≤ count') : (e.leave i d).Steady p bound' off' count' :=
  ⟨hs, (h.mono hb ho hc).book.leave hslot hd⟩

theorem Steady.lively (h : e.Steady p bound off count) : e.Lively := fun _ _ hslot o ho =>
  have hfit := (h.book _ _ hslot).balanced.fit o ho
  ⟨hfit.live, hfit.pos⟩

theorem Steady.live (h : e.Steady p bound off count) : e.Live := h.lively.live

theorem addInstrument_steady (h : e.Steady p bound off count) (config : InstrumentConfig)
    (hnonneg : 0 ≤ bound ∧ 0 ≤ off) :
    (e.addInstrument config).engine.Steady p bound off count :=
  ⟨addInstrument_sound h.sound config, h.book.addInstrument config
    ((Book.steady_empty p _).mono hnonneg.1 hnonneg.2 (Nat.zero_le _))⟩

/-- An intent that the engine `Admits` is accepted. -/
theorem submit_steady {world : Surroundings} {intent : OrderIntent}
    (h : e.Steady p bound off count) (ha : e.Admits world intent i slot)
    (hgrid : p.grid ∣ intent.quantity.atoms)
    (hcap : bound + intent.quantity.atoms + off + p.drift count ≤ p.cap) :
    (∃ r, (e.submit world intent).answer = .ok (.ok r)) ∧
      (e.submit world intent).engine.Steady p (bound + intent.quantity.atoms)
        (off + p.drift count) (count + 1) := by
  have hslot := slot_of_lookup? ha.found
  have hpos : (0 : Int) < intent.quantity.atoms := (passed_of_checkIntent ha.checked).pos
  have hnonneg := (h.book _ _ hslot).nonneg
  have hsound := submit_sound h.sound world intent
  have hfit : (e.entering world intent).Fit p (bound + intent.quantity.atoms + off) :=
    ⟨rfl, hpos, Int.le_refl _, by change intent.quantity.atoms ≤ _; omega, hgrid, hgrid⟩
  unfold Decimal.Precision.drift at hcap ⊢
  obtain ⟨r, d, hrun, hd⟩ := Desk.execute_steady world (ha.enters h.sound.toInOrder)
    (h.book _ _ hslot) hfit
    (by change bound + intent.quantity.atoms + _ + _ ≤ _; omega)
  change d.book.Steady p (bound + intent.quantity.atoms) _ _ at hd
  obtain ⟨reply, hreply, hengine, hanswer, -⟩ := submit_of_admits ha
  rw [h.sound.rule_eq, guarded_of_uncrossed hrun hd.isCrossed_eq] at hreply
  rw [hengine, hreply] at hsound ⊢
  rw [hanswer, hreply]
  have hrec : (e.received i (e.entering world intent).id).Steady p bound off count :=
    ⟨h.sound.received ha.free i, h.book⟩
  refine ⟨⟨r, rfl⟩, hrec.leave hslot hsound (hd.mono (Int.le_refl _) ?_ (Nat.le_refl _)) ?_ ?_
    (Nat.le_succ _)⟩ <;> omega

/-- Any other intent is rejected, and the engine stays steady. -/
theorem submit_refused_steady {world : Surroundings} {intent : OrderIntent}
    (h : e.Steady p bound off count) (hnot : ∀ i slot, ¬ e.Admits world intent i slot) :
    (∃ why, (e.submit world intent).answer = .ok (.error why)) ∧
      (e.submit world intent).engine.Steady p bound off count := by
  have hrefused := submit_refused h.sound.toInOrder hnot
  refine ⟨?_, h.unmoved hrefused.unmoved⟩
  rcases hrefused.answer with hwhy | ⟨j, slot, hslot, hcrossed, -⟩
  · exact hwhy
  · rw [(h.book _ _ hslot).isCrossed_eq] at hcrossed
    cases hcrossed

theorem cancel_steady (h : e.Steady p bound off count) (world : Surroundings) (id : OrderId)
    (hcap : bound + off ≤ p.cap) :
    (∃ r, (e.cancel world id).answer = .ok r) ∧
      (e.cancel world id).engine.Steady p bound (off + p.slack) count := by
  have hsound := cancel_sound h.sound world id
  cases hl : e.locate? id with
  | none =>
      rw [cancel_not_found hl]
      exact ⟨⟨_, rfl⟩, h.mono (Int.le_refl _) (by omega) (Nat.le_refl _)⟩
  | some place =>
      obtain ⟨hslot, -⟩ := route_of_locate? hl
      obtain ⟨r, d, hrun, hd⟩ :=
        Desk.cancel_steady (d := e.desk place.2.book) world id (h.book _ _ hslot) hcap
      obtain ⟨reply, hreply, hengine, hanswer, -⟩ := cancel_run world hl
      rw [exclusive_of_uncrossed hrun hd.isCrossed_eq] at hreply
      rw [hengine, hreply] at hsound ⊢
      rw [hanswer, hreply]
      exact ⟨⟨r, rfl⟩, h.leave hslot hsound hd (Int.le_refl _) (by omega) (Nat.le_refl _)⟩

/-- A request that `Revises` an order is carried out. -/
theorem modify_steady {id : OrderId} {request : ModifyRequest} (h : e.Steady p bound off count)
    (world : Surroundings) (hr : e.Revises id request i slot)
    (hgrid : p.grid ∣ request.quantity.atoms)
    (hcap : bound + request.quantity.atoms + off + p.drift count ≤ p.cap) :
    (∃ r, (e.modify world id request).answer = .ok r) ∧
      (e.modify world id request).engine.Steady p (bound + request.quantity.atoms)
        (off + p.drift count) (count + 1) := by
  have hslot := (route_of_locate? hr.found).1
  have hq := (passed_of_checkRequest hr.checked).1
  have hpos : (0 : Int) < request.quantity.atoms := hq
  have hsound := modify_sound h.sound h.live world id request
  obtain ⟨r, d, hrun, hd⟩ := Desk.modifyOrder_steady world id request (h.book _ _ hslot)
    (h.sound.ready h.live hslot) hq hgrid hcap
  have hdrift : 0 ≤ p.drift count := by
    unfold Decimal.Precision.drift
    omega
  rw [modify_of_revises hr, h.sound.rule_eq, guarded_of_uncrossed hrun hd.isCrossed_eq] at hsound ⊢
  exact ⟨⟨r, rfl⟩, h.leave hslot hsound hd (by omega) (by omega) (Nat.le_succ _)⟩

end Steady

end Engine

end Bourse
