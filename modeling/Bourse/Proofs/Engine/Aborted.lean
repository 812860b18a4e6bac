import Bourse.Proofs.Engine.Steady
import Bourse.Proofs.Engine.Stopped

/-!
# Calls that stop at a fault

In a `Steady` engine only one thing can stop a call: a sum that gets too large. A level
that is too large for what is left of an order stands on the order's own side, so nothing
across suited the order and nothing has traded (`Enters.insert_error`). Hence an aborted
submission leaves every order as it was, an aborted modification has taken its own order
out and done no more, and neither sends an event.
-/

namespace Bourse

namespace Order

variable {p : Decimal.Precision} {most : Int} {o : Order} {q : Quantity}

/-- A smaller quantity is no problem to `setRemaining`, whatever its grid. -/
theorem Fit.setRemaining_isOk (h : o.Fit p most) (hq : 0 < q.atoms)
    (hle : q.atoms ≤ o.remaining.atoms) (hm : most + p.slack ≤ p.cap) :
    ∃ o', Order.setRemaining q o = .ok ⟨⟩ o' := by
  have hpos := h.pos
  have hremaining := h.le
  have hquantity := h.le_most
  have hcap := p.cap_le
  obtain ⟨f, hf, -, hup, hlo⟩ :=
    p.sub_of_le h.grid_quantity h.grid_remaining (by omega) (by omega)
  obtain ⟨sum, hsum⟩ : ∃ c, f.add? q = some c := Decimal.add?_isSome (by omega) (by omega)
  have hfilled : o.filled = .ok f := filled_eq_ok.mpr hf
  rw [setRemaining_run, hfilled]
  dsimp only
  rw [Decimal.add_eq_ok.mpr hsum]
  exact ⟨_, rfl⟩

end Order

namespace Book

variable {p : Decimal.Precision} {bound off : Int} {count : Nat} {b : Book} {o : Order}

theorem Balanced.reduce_isOk (h : b.Balanced p bound off count) (hs : b.Sound) (ho : b.Holds o)
    {q : Quantity} (hq : 0 < q.atoms) (hle : q.atoms ≤ o.remaining.atoms)
    (hcap : bound + off + p.slack ≤ p.cap) : ∃ o' b', Book.reduce o.id q b = .ok o' b' := by
  obtain ⟨level, hl, xs, ys, hx, hred⟩ := reduce_cases hs ho q
  have hnot : ¬ (q ≤ 0 ∨ o.remaining < q) := by
    rintro (hz | hlt)
    · exact Int.not_lt.mpr hz hq
    · exact Int.not_lt.mpr hle hlt
  have hfit := h.fit o ho
  have hpos := hfit.pos
  have hclose := h.close o.side level hl
  have hle := hclose.le
  have hge := hclose.ge
  have hbound := h.level_left_le hs hl
  have hrest := h.rest_nonneg hs hl hx
  have hmost := p.cap_le
  rw [hx] at hle hge hbound
  simp only [left_append, left_cons] at hle hge hbound hrest
  obtain ⟨o', hset⟩ := hfit.setRemaining_isOk hq (by omega) hcap
  obtain ⟨without, hwithout, -, hup, hlo⟩ :=
    p.sub_of_le hclose.grid hfit.grid_remaining (by omega) (by omega)
  obtain ⟨total, htotal⟩ : ∃ c, without.add? q = some c :=
    Decimal.add?_isSome (by omega) (by omega)
  rw [if_neg hnot, hset] at hred
  dsimp only at hred
  rw [hwithout] at hred
  dsimp only [orFault] at hred
  rw [Decimal.add_eq_ok.mpr htotal] at hred
  obtain ⟨b', -, -, hrun⟩ := hred
  exact ⟨o', b', hrun⟩

end Book

namespace Encounter

variable {e e' : Encounter} {fill : Fill}

/-- Who comes in at the price of an order on his own side finds nothing across that suits him. -/
theorem not_step_of_level (h : e.book.Apart) (hs : e.book.Sound) {x : Order} {price p : Price}
    (hx : e.book.Holds x) (hside : x.side = e.incoming.side)
    (hprice : e.incoming.price = some price) (hp : x.price = some p) (hv : p.SameValue price) :
    ¬ Step e fill e' := by
  intro hstep
  obtain ⟨level, post, maker, ys, total, hdeal⟩ := hstep.deal hs
  obtain ⟨hmaker, limit, hlimit, hv', -⟩ := hdeal.first hs
  have hcross := hstep.crosses
  unfold Order.Crosses at hcross
  have hv : p.atoms = price.atoms := hv
  have hv' : fill.price.atoms = limit.atoms := hv'
  cases hs' : e.incoming.side with
  | buy =>
      rw [hs', hprice] at hcross
      rw [hs'] at hside hmaker
      have hlt : p.atoms < limit.atoms :=
        h x maker p limit hx (hdeal.holds hs) hside hmaker hp hlimit
      have hle : fill.price.atoms ≤ price.atoms := hcross
      omega
  | sell =>
      rw [hs', hprice] at hcross
      rw [hs'] at hside hmaker
      have hlt : limit.atoms < p.atoms :=
        h maker x limit p (hdeal.holds hs) hx hmaker hside hlimit hp
      have hle : price.atoms ≤ fill.price.atoms := hcross
      omega

end Encounter

namespace Desk

variable {p : Decimal.Precision} {bound off : Int} {count : Nat} {o : Order} {d d' : Desk}
  {f : Fault} {world : Surroundings} {id : OrderId}

/-- What is left of an order can be refused only by a level whose sum it would push out of range,
and then nothing has traded. -/
theorem Enters.insert_error {moments : List (Encounter × Fill)} {e' : Encounter} {b : Book}
    (h : Enters o d) (hb : d.book.Steady p bound off count)
    (hm : Encounter.Trades ⟨o, d.book⟩ moments e') (hpos : 0 < e'.incoming.remaining)
    (hwaits : Waits e'.incoming) (hins : Book.insert e'.incoming e'.book = .error f b) :
    Book.Kept d.book b ∧ b.Steady p bound off count := by
  have hs := hb.sound
  have hw := hm.worn hs
  have hsame := (hm.filled hs).same
  obtain ⟨⟨price, hprice⟩, hfree, hseq⟩ := h.insertable (hm.filled hs) hw hwaits.1
  obtain ⟨old, level, hold, hcases⟩ :=
    Book.insert_cases hw.sound hwaits.1 hprice hpos hfree hseq
  cases hsum : level.total.add? e'.incoming.remaining with
  | some total =>
      rw [hsum] at hcases
      obtain ⟨_, _, _, -, -, -, hrun⟩ := hcases
      rw [hrun] at hins
      cases hins
  | none =>
      rw [hsum] at hcases
      obtain ⟨b', hx, hkept, hrun⟩ := hcases
      rw [hrun] at hins
      cases hins
      rcases hold with ⟨rfl, hl, hv⟩ | ⟨rfl, rfl⟩
      · -- Somebody stands at that level, and has stood there from the beginning.
        obtain ⟨x, hx'⟩ := List.exists_mem_of_ne_nil _ ((hm.parted hb.parted).packed _ level hl)
        have hmem : x ∈ (e'.book.ladder e'.incoming.side).orders :=
          List.mem_flatMap.mpr ⟨level, hl, hx'⟩
        obtain ⟨y, hy, hf⟩ := hw.from_fills x (hw.sound.holds_of_mem hmem)
        have hside := hw.sound.side_of_mem hmem
        obtain ⟨q, hq, hqv⟩ := (((hw.sound.ladder _).sound level hl).placed x hx').price_eq
        rw [hf.same.side_eq, hsame.side_eq] at hside
        rw [hf.same.price_eq] at hq
        rw [hsame.price_eq] at hprice
        cases hm with
        | none =>
            refine ⟨hkept, hkept.sound, hb.balanced.exchanged hx (Int.le_refl _) (Int.le_refl _)
              (Nat.le_refl _) (fun l hl' => ?_) (Int.le_refl _) (Nat.le_refl _)
              (fun x hx => hb.balanced.fit x ((hkept.holds_iff x).mp hx)),
              hb.apart.worn (.of_kept hkept), hb.nonneg⟩
            rw [List.mem_singleton.mp hl']
            exact ⟨hb.balanced.packed _ level hl, hb.balanced.close _ level hl⟩
        | some hstep _ =>
            exact absurd hstep
              (Encounter.not_step_of_level hb.apart hs hy hside hprice hq (hqv.trans hv))
      · -- A level of its own has room for any order.
        have hroom := (Decimal.representable_atoms e'.incoming.remaining).bounds
        have hzero : (Level.empty price).total.atoms = 0 := Decimal.atoms_zero
        obtain ⟨c, hc⟩ : ∃ c, (Level.empty price).total.add? e'.incoming.remaining = some c :=
          Decimal.add?_isSome (by omega) (by omega)
        rw [hc] at hsum
        cases hsum

/-- `execute` that stops at a fault has changed nothing. -/
theorem execute_error (h : Enters o d) (hb : d.book.Steady p bound off count)
    (hcap : bound + off + 2 * (p.slack * count : Nat) ≤ p.cap)
    (hrun : execute .priceTime world o d = .error f d') :
    Book.Kept d.book d'.book ∧ d'.book.Steady p bound off count := by
  obtain ⟨fills, e', hmatch⟩ := Encounter.priceTime_isOk (e := ⟨o, d.book⟩) hb.sound hb.balanced
    h.live hb.nonneg.1 hcap
  obtain ⟨moments, hm, -, -⟩ := Encounter.trades_of_priceTime hmatch hb.sound
  rcases execute_cases world h (fun _ => hb.sized) hmatch with ⟨r, d₁, hok⟩ |
      ⟨f', d₁, herror, hpos, hwaits, hins⟩
  · rw [hrun] at hok
    cases hok
  · rw [hrun] at herror
    cases herror
    exact h.insert_error hb hm hpos hwaits hins

theorem lessen_isOk {q : Quantity} (world : Surroundings) (hb : d.book.Steady p bound off count)
    (ho : d.book.Holds o) (hq : 0 < q) (hle : q ≤ o.remaining)
    (hcap : bound + off + p.slack ≤ p.cap) : ∃ r d', lessen world o.id q d = .ok r d' := by
  obtain ⟨o', b, hred⟩ := hb.balanced.reduce_isOk hb.sound ho hq hle hcap
  have hout := Book.reduce_outcome hb.sound ho q
  rw [hred] at hout
  obtain ⟨-, -, hset, -⟩ := hout
  have hsized := Order.setRemaining_sized hset (hb.sized ho) (Int.le_of_lt hq)
  obtain ⟨u, -, hu⟩ := emitUpdate_isOk world hsized { d with book := b }
  rw [lessen_run, hred]
  dsimp only
  rw [hu]
  exact ⟨_, _, rfl⟩

/-- `modifyOrder` that stops at a fault has taken its order out and has changed nothing else. -/
theorem modifyOrder_error {request : ModifyRequest} (hb : d.book.Steady p bound off count)
    (hready : d.Ready) (hq : 0 < request.quantity) (hcap : bound + off + p.drift count ≤ p.cap)
    (hrun : modifyOrder .priceTime world id request d = .error f d') :
    ∃ o, d.book.Holds o ∧ o.id = id ∧ Book.Departed o d.book d'.book ∧
      d'.book.Steady p bound (off + p.slack) count := by
  have hs := hb.sound
  have hnonneg := hb.nonneg
  unfold Decimal.Precision.drift at hcap
  rw [modifyOrder_run] at hrun
  cases hget : d.book.get? id with
  | none =>
      rw [hget] at hrun
      cases hrun
  | some o =>
      rw [hget] at hrun
      obtain ⟨ho, rfl⟩ := hs.get?_iff.mp hget
      refine ⟨o, ho, rfl, ?_⟩
      dsimp only at hrun
      split at hrun
      · cases hrun
      · split at hrun
        · next hless =>
            obtain ⟨r, d₁, hok⟩ := lessen_isOk world hb ho hq (Int.le_of_lt hless.2) (by omega)
            rw [hok] at hrun
            cases hrun
        · obtain ⟨b, htake, hdep, hbal⟩ := hb.balanced.take hs ho (by omega)
          have hsteady : b.Steady p bound (off + p.slack) count :=
            ⟨hdep.sound, hbal, hb.apart.worn (.of_departed hdep), by omega⟩
          rw [reenter_run, htake] at hrun
          dsimp only at hrun
          cases hset : Order.setRemaining request.quantity
              { o with price := request.price.or o.price } with
          | error f' o' =>
              rw [hset] at hrun
              cases hrun
              exact ⟨hdep, hsteady⟩
          | ok _ o' =>
              rw [hset] at hrun
              dsimp only at hrun
              have hent := hready.enters ho (Int.le_of_lt hq) hdep hset
              cases hexec : execute .priceTime world
                  { o' with sequence := d.counters.arrivals + 1 } (d.rearrived b) with
              | ok r d₁ =>
                  rw [hexec] at hrun
                  cases hrun
              | error f' d₁ =>
                  rw [hexec] at hrun
                  cases hrun
                  obtain ⟨hkept, hdone⟩ := execute_error (d := d.rearrived b) hent hsteady
                    (by omega) hexec
                  exact ⟨⟨hkept.sound, fun x => (hkept.holds_iff x).trans (hdep.holds_iff x)⟩,
                    hdone⟩

end Desk

namespace Engine

variable {p : Decimal.Precision} {bound off : Int} {count : Nat} {e : Engine} {i : Nat}
  {slot : Slot} {world : Surroundings} {id : OrderId} {f : Fault}

/-- If `guarded` work is stopped, but never by a crossed book, it has stopped at a fault of its own.
-/
theorem guarded_fault {α : Type} {act : Attempt Desk α}
    (hparted : ∀ a d, act (e.desk slot.book) = .ok a d → d.book.Parted)
    (h : (e.guarded i slot id act).answer = .error f) :
    ∃ d, act (e.desk slot.book) = .error f d ∧
      (e.guarded i slot id act).engine = e.leave i (spared id d) ∧
      (e.guarded i slot id act).events = [] := by
  obtain ⟨hleave, hsilent⟩ := guarded_of_error h
  rw [guarded_run] at h
  cases hrun : act (e.desk slot.book) with
  | ok a d =>
      rw [hrun] at h
      dsimp only at h
      rw [(hparted a d hrun).isCrossed_eq, if_neg Bool.false_ne_true] at h
      cases h
  | error f' d =>
      rw [hrun] at h
      cases h
      rw [Attempt.outcome_error hrun] at hleave
      exact ⟨d, rfl, hleave, hsilent⟩

theorem rests_spared (hslot : e.slots[i]? = some slot) (d : Desk) {j : Nat} {o : Order} :
    (e.leave i (spared id d)).Rests j o ↔
      (j = i ∧ d.book.Holds o) ∨ (j ≠ i ∧ e.Rests j o) := by
  rw [rests_leave hslot, (spared_same id d).1]

/-- An aborted `submit` leaves every order as it was. -/
theorem submit_error {intent : OrderIntent} (h : e.Steady p bound off count)
    (hcap : bound + off + p.drift count ≤ p.cap)
    (ha : (e.submit world intent).answer = .error f) :
    (e.submit world intent).events = [] ∧
      (∀ j o, (e.submit world intent).engine.Rests j o ↔ e.Rests j o) ∧
      (e.submit world intent).engine.Steady p bound off count := by
  have hsound := submit_sound h.sound world intent
  by_cases hadmits : ∃ i slot, e.Admits world intent i slot
  · obtain ⟨i, slot, hadm⟩ := hadmits
    have hslot := slot_of_lookup? hadm.found
    have hent := hadm.enters h.sound.toInOrder
    have hb := h.book i slot hslot
    obtain ⟨reply, hreply, hengine, hanswer, hevents⟩ := submit_of_admits hadm
    have herror := map_eq_error.mp (hanswer.symm.trans ha)
    rw [h.sound.rule_eq] at hreply
    rw [hreply] at herror
    obtain ⟨d, hrun, hleave, hnone⟩ := guarded_fault (fun r d hok =>
      (Desk.executed_of_ok hent.sound hok).parted hent hb.parted) herror
    unfold Decimal.Precision.drift at hcap
    obtain ⟨hkept, hsteady⟩ := Desk.execute_error hent hb (by omega) hrun
    have hrec : (e.received i (e.entering world intent).id).Steady p bound off count :=
      ⟨h.sound.received hadm.free i, h.book⟩
    rw [hengine, hreply, hleave] at hsound ⊢
    rw [hevents, hreply, hnone]
    refine ⟨rfl, fun j o => ?_, hrec.leave hslot hsound ?_ (Int.le_refl _) (Int.le_refl _)
      (Nat.le_refl _)⟩
    · refine (rests_spared (e := e.received i (e.entering world intent).id) hslot d).trans ?_
      constructor
      · rintro (⟨rfl, ho⟩ | ⟨-, ho⟩)
        · exact ⟨slot, hslot, (hkept.holds_iff o).mp ho⟩
        · exact ho
      · rintro ⟨slot', hslot', ho⟩
        by_cases hj : j = i
        · subst hj
          rw [hslot] at hslot'
          cases hslot'
          exact Or.inl ⟨rfl, (hkept.holds_iff o).mpr ho⟩
        · exact Or.inr ⟨hj, slot', hslot', ho⟩
    · rw [(spared_same _ d).1]
      exact hsteady
  · obtain ⟨⟨why, hwhy⟩, -⟩ := submit_refused_steady h fun i slot hadm => hadmits ⟨i, slot, hadm⟩
    rw [ha] at hwhy
    cases hwhy

/-- An aborted `modify` takes its order out and leaves every other as it was. -/
theorem modify_error {request : ModifyRequest} (h : e.Steady p bound off count)
    (hcap : bound + off + p.drift count ≤ p.cap)
    (ha : (e.modify world id request).answer = .error f) :
    (e.modify world id request).events = [] ∧
      (∀ j o, (e.modify world id request).engine.Rests j o → e.Rests j o) ∧
      (e.modify world id request).engine.Steady p bound (off + p.slack) count := by
  have hsound := modify_sound h.sound h.live world id request
  by_cases hrevises : ∃ i slot, e.Revises id request i slot
  · obtain ⟨i, slot, hr⟩ := hrevises
    have hslot := (route_of_locate? hr.found).1
    have hb := h.book i slot hslot
    have hq := (passed_of_checkRequest hr.checked).1
    have hready := h.sound.ready h.live hslot
    rw [modify_of_revises hr, h.sound.rule_eq] at ha hsound ⊢
    obtain ⟨d, hrun, hleave, hnone⟩ := guarded_fault (fun r d hok =>
      (Desk.modified_of_ok hb.sound hok).parted hready hb.parted hq) ha
    obtain ⟨o, -, -, hdep, hsteady⟩ := Desk.modifyOrder_error hb hready hq hcap hrun
    rw [hleave] at hsound ⊢
    rw [hnone]
    refine ⟨rfl, fun j x hx => ?_, h.leave hslot hsound ?_ (Int.le_refl _) (by omega)
      (Nat.le_refl _)⟩
    · rcases (rests_spared hslot d).mp hx with ⟨rfl, hheld⟩ | ⟨-, hrests⟩
      · exact ⟨slot, hslot, ((hdep.holds_iff x).mp hheld).1⟩
      · exact hrests
    · rw [(spared_same _ d).1]
      exact hsteady
  · obtain ⟨-, -, hanswer⟩ :=
      modify_refused world h.sound.toInOrder fun i slot hr => hrevises ⟨i, slot, hr⟩
    rcases hanswer with hok | ⟨reason, hok⟩ <;> rw [ha] at hok <;> cases hok

end Engine

end Bourse
