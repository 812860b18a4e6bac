import Bourse.Proofs.Engine.Each
import Bourse.Proofs.Matching.Solvent

/-!
# Engines stay solvent

Under a rule that makes whole trades (`Fills`) every call leaves the books `Solvent`,
whatever stops it and wherever it is stopped, for a credit that grows by two units at
most. An order that is matched costs one unit for its last trade and one for its rest. So
for as many calls as there will ever be, every order that rests can still trade
(`Solvent.live`), those included that an aborted call has left behind.
-/

namespace Bourse

open Decimal (halfUnit greatestAtoms)

namespace Desk

variable {credit : Int} {world : Surroundings} {o taker : Order} {d : Desk} {rule : MatchingRule}
  {id : OrderId} {request : ModifyRequest}

theorem emitUpdate_solvent (world : Surroundings) (o : Order) (hb : d.book.Solvent credit) :
    match emitUpdate world o d with
    | .error _ d' | .ok _ d' => d'.book.Solvent credit := by
  rw [emitUpdate_run]
  cases OrderUpdate.ofOrder o world.now (d.counters.events + 1) <;> exact hb

theorem settle_solvent (h : Enters o d) {d₂ : Desk} (hfilled : o.Filled taker)
    (hw : Book.Worn d.book d₂.book) (hb : d₂.book.Solvent credit) :
    match settle taker d₂ with
    | .error _ d' | .ok _ d' => d'.book.Solvent (credit + 2 * halfUnit) := by
  have hkept : d₂.book.Solvent (credit + 2 * halfUnit) := hb.mono (by omega)
  rw [settle_run]
  by_cases hpos : 0 < taker.remaining
  · rw [if_pos hpos]
    by_cases hwaits : Waits taker
    · have hinsert := hb.insert hw.sound (hfilled.isLive h.live hpos)
      rw [if_pos hwaits]
      cases hrun : Book.insert taker d₂.book with
      | error f b =>
          rw [hrun] at hinsert
          exact hinsert
      | ok u b =>
          rw [hrun] at hinsert
          exact hinsert
    · rw [if_neg hwaits, orViolate_cancel_run, if_pos (hfilled.isLive h.live hpos)]
      exact hkept
  · rw [if_neg hpos]
    exact hkept

theorem execute_solvent (hr : rule.Whole) (world : Surroundings) (h : Enters o d)
    (hb : d.book.Solvent credit) (hcap : credit ≤ greatestAtoms) :
    match execute rule world o d with
    | .error _ d' | .ok _ d' => d'.book.Solvent (credit + 4 * halfUnit) := by
  rw [execute_run]
  by_cases hk : d.MustKill o
  · obtain ⟨u, -, hrun⟩ := kill_isOk world h.live h.sized d
    rw [if_pos hk, hrun]
    exact hb.mono (by omega)
  · obtain ⟨moments, e', hm, hrun⟩ :=
      hr (d.counters.matchings + 1) credit ⟨o, d.book⟩ h.sound hb h.live hcap
    have hmatched := hm.solvent h.sound hb
    have hkept : e'.book.Solvent (credit + 4 * halfUnit) := hmatched.mono (by omega)
    rw [if_neg hk, matchOrder_run]
    rcases hrun with hrun | ⟨f, hrun⟩
    · have hnoted := reports_noted world e'.incoming (moments.map Prod.snd) (d.matched e'.book)
      rw [hrun]
      dsimp only
      cases hrep : (moments.map Prod.snd).mapM (report world e'.incoming) (d.matched e'.book) with
      | error f d₂ =>
          rw [Attempt.outcome_error hrep] at hnoted
          have hbook : d₂.book = e'.book := hnoted.book_eq
          dsimp only
          rw [hbook]
          exact hkept
      | ok trades d₂ =>
          rw [Attempt.outcome_ok hrep] at hnoted
          have hbook : d₂.book = e'.book := hnoted.book_eq
          have hsettled := settle_solvent h (hm.filled h.sound) (hbook ▸ hm.worn h.sound)
            (hbook ▸ hmatched)
          have hunits : credit + 2 * halfUnit + 2 * halfUnit = credit + 4 * halfUnit := by omega
          rw [hunits] at hsettled
          dsimp only
          cases hst : settle e'.incoming d₂ with
          | error f d₃ =>
              rw [hst] at hsettled
              exact hsettled
          | ok o' d₃ =>
              rw [hst] at hsettled
              dsimp only at hsettled
              have hclosed : (d₃.closed o').book.Solvent _ := (d₃.closed_same o').1 ▸ hsettled
              have htold := emitUpdate_solvent world o' hclosed
              dsimp only
              cases hu : emitUpdate world o' (d₃.closed o') with
              | error f d₄ =>
                  rw [hu] at htold
                  exact htold
              | ok u d₄ =>
                  rw [hu] at htold
                  exact htold
    · rw [hrun]
      exact hkept

theorem cancel_solvent (world : Surroundings) (id : OrderId) (hs : d.book.Sound)
    (hb : d.book.Solvent credit) :
    match cancel world id d with
    | .error _ d' | .ok _ d' => d'.book.Solvent credit := by
  rcases index_cases hs id with ⟨o, ho, rfl⟩ | ⟨-, hnone⟩
  · have htaken := hb.take hs ho
    rw [cancel_run, Book.cancel_run]
    cases ht : Book.take o.id d.book with
    | error f b =>
        rw [ht] at htaken
        exact htaken
    | ok r b =>
        rw [ht] at htaken
        cases r with
        | none => exact htaken
        | some x =>
            dsimp only
            cases x.cancel.toOption with
            | none => exact htaken
            | some x' =>
                have htold :=
                  emitUpdate_solvent (d := { d with book := b }.release o.id) world x' htaken
                dsimp only
                cases hu : emitUpdate world x' ({ d with book := b }.release o.id) with
                | error f d₁ =>
                    rw [hu] at htold
                    exact htold
                | ok u d₁ =>
                    rw [hu] at htold
                    exact htold
  · rw [cancel_absent world hnone]
    exact hb

theorem lessen_solvent (world : Surroundings) (q : Quantity) (hs : d.book.Sound)
    (ho : d.book.Holds o) (hb : d.book.Solvent credit) :
    match lessen world o.id q d with
    | .error _ d' | .ok _ d' => d'.book.Solvent (credit + 2 * halfUnit) := by
  have hreduced := hb.reduce hs ho q
  rw [lessen_run]
  cases hred : Book.reduce o.id q d.book with
  | error f b =>
      rw [hred] at hreduced
      exact hreduced
  | ok x b =>
      rw [hred] at hreduced
      have htold := emitUpdate_solvent (d := { d with book := b }) world x hreduced
      dsimp only
      cases hu : emitUpdate world x { d with book := b } with
      | error f d₁ =>
          rw [hu] at htold
          exact htold
      | ok u d₁ =>
          rw [hu] at htold
          exact htold

theorem reenter_solvent (hr : rule.Whole) (world : Surroundings) (price : Option Price)
    {q : Quantity} (h : d.Ready) (ho : d.book.Holds o) (hq : 0 ≤ q) (hb : d.book.Solvent credit)
    (hcap : credit ≤ greatestAtoms) :
    match reenter rule world o.id (price.or o.price) q d with
    | .error _ d' | .ok _ d' => d'.book.Solvent (credit + 4 * halfUnit) := by
  have htaken := hb.take h.sound ho
  have hout := Book.take_outcome h.sound ho
  rw [reenter_run]
  cases htake : Book.take o.id d.book with
  | error f b =>
      rw [htake] at htaken
      exact htaken.mono (by omega)
  | ok r b =>
      rw [htake] at htaken hout
      obtain ⟨rfl, hdep⟩ := hout
      dsimp only
      cases hset : Order.setRemaining q { o with price := price.or o.price } with
      | error f o' => exact htaken.mono (by omega)
      | ok _ o' =>
          exact execute_solvent (d := d.rearrived b) hr world (h.enters ho hq hdep hset) htaken hcap

theorem modifyOrder_solvent (hr : rule.Whole) (world : Surroundings) (id : OrderId)
    (request : ModifyRequest) (h : d.Ready) (hq : 0 ≤ request.quantity)
    (hb : d.book.Solvent credit) (hcap : credit ≤ greatestAtoms) :
    match modifyOrder rule world id request d with
    | .error _ d' | .ok _ d' => d'.book.Solvent (credit + 4 * halfUnit) := by
  refine modifyOrder_leaves h.sound (hb.mono (by omega)) ?_ ?_
  · rintro o ho rfl
    have hlessened := lessen_solvent world request.quantity h.sound ho hb
    cases hrun : lessen world o.id request.quantity d with
    | error f d' =>
        rw [hrun] at hlessened
        exact hlessened.mono (by omega)
    | ok r d' =>
        rw [hrun] at hlessened
        exact hlessened.mono (by omega)
  · rintro o ho rfl
    exact reenter_solvent hr world request.price h ho hq hb hcap

end Desk

namespace Engine

/-- All books are `Book.Solvent`, and some credit is left to the slots that are yet to come. -/
structure Solvent (credit : Int) (e : Engine) : Prop where
  nonneg : 0 ≤ credit
  book : e.Each fun _ b => b.Solvent credit

variable {credit : Int} {e : Engine} {i : Nat} {slot : Slot} {world : Surroundings}

theorem solvent_empty (rule : MatchingRule) : (Engine.empty rule).Solvent 0 where
  nonneg := Int.le_refl _
  book := .empty _ rule

theorem Solvent.mono (h : e.Solvent credit) {credit' : Int} (hle : credit ≤ credit') :
    e.Solvent credit' where
  nonneg := Int.le_trans h.nonneg hle
  book := h.book.mono fun _ _ hb => hb.mono hle

theorem Solvent.live (h : e.Solvent credit) : e.Live := by
  intro i o ho
  obtain ⟨slot, hslot, ho⟩ := ho
  exact ((h.book i slot hslot).lively o ho).1

theorem Solvent.leave (h : e.Solvent credit) (hslot : e.slots[i]? = some slot) {credit' : Int}
    (hle : credit ≤ credit') {d : Desk} (hd : d.book.Solvent credit') :
    (e.leave i d).Solvent credit' where
  nonneg := Int.le_trans h.nonneg hle
  book := (h.mono hle).book.leave hslot hd

theorem Solvent.unmoved {e' : Engine} (h : e.Solvent credit) (hu : Unmoved e e') :
    e'.Solvent credit where
  nonneg := h.nonneg
  book := h.book.unmoved hu

theorem Solvent.addInstrument (h : e.Solvent credit) (config : InstrumentConfig) :
    (e.addInstrument config).engine.Solvent credit where
  nonneg := h.nonneg
  book := h.book.addInstrument config (Book.solvent_empty _ h.nonneg)

theorem Solvent.submit (hrule : e.rule.Whole) (hs : e.InOrder) (h : e.Solvent credit)
    (hcap : credit ≤ greatestAtoms) (world : Surroundings) (intent : OrderIntent) :
    (e.submit world intent).engine.Solvent (credit + 4 * halfUnit) := by
  by_cases hadmits : ∃ i slot, e.Admits world intent i slot
  · obtain ⟨i, slot, ha⟩ := hadmits
    have hslot := slot_of_lookup? ha.found
    obtain ⟨r, hr, hengine, -, -⟩ := submit_of_admits ha
    obtain ⟨d, hd, hbook⟩ := guarded_book (e.received i (e.entering world intent).id) i slot
      (e.entering world intent).id (Desk.execute e.rule world (e.entering world intent))
    rw [hengine, hr, hd]
    refine Solvent.leave (e := e.received i _) ⟨h.nonneg, h.book⟩ hslot (by omega) ?_
    have hleft := Desk.execute_solvent hrule world (ha.enters hs) (h.book i slot hslot) hcap
    rw [hbook]
    refine Attempt.outcome_state (P := fun d : Desk => d.book.Solvent (credit + 4 * halfUnit)) ?_
    generalize Desk.execute _ _ _ _ = out at hleft ⊢
    cases out <;> exact hleft
  · have hrefused := submit_refused hs fun i slot ha => hadmits ⟨i, slot, ha⟩
    exact (h.unmoved hrefused.unmoved).mono (by omega)

theorem Solvent.cancel (hs : e.InOrder) (h : e.Solvent credit) (world : Surroundings)
    (id : OrderId) : (e.cancel world id).engine.Solvent credit := by
  cases hl : e.locate? id with
  | none =>
      rw [cancel_not_found hl]
      exact h
  | some place =>
      obtain ⟨hslot, -⟩ := route_of_locate? hl
      obtain ⟨r, hr, hengine, -, -⟩ := cancel_run world hl
      rw [hengine, hr, exclusive_outcome]
      refine h.leave hslot (Int.le_refl _) ?_
      have hleft := Desk.cancel_solvent (d := e.desk place.2.book) world id (hs.book hslot)
        (h.book place.1 place.2 hslot)
      refine Attempt.outcome_state (P := fun d : Desk => d.book.Solvent credit) ?_
      generalize Desk.cancel _ _ _ = out at hleft ⊢
      cases out <;> exact hleft

theorem Solvent.modify (hrule : e.rule.Whole) (hs : e.InOrder) (h : e.Solvent credit)
    (hcap : credit ≤ greatestAtoms) (world : Surroundings) (id : OrderId)
    (request : ModifyRequest) :
    (e.modify world id request).engine.Solvent (credit + 4 * halfUnit) := by
  by_cases hrevises : ∃ i slot, e.Revises id request i slot
  · obtain ⟨i, slot, hr⟩ := hrevises
    obtain ⟨hslot, -⟩ := route_of_locate? hr.found
    obtain ⟨d, hd, hbook⟩ :=
      guarded_book e i slot id (Desk.modifyOrder e.rule world id request)
    rw [modify_of_revises hr, hd]
    refine h.leave hslot (by omega) ?_
    have hleft := Desk.modifyOrder_solvent hrule world id request (hs.ready h.live hslot)
      (Int.le_of_lt (passed_of_checkRequest hr.checked).1) (h.book i slot hslot) hcap
    rw [hbook]
    refine Attempt.outcome_state (P := fun d : Desk => d.book.Solvent (credit + 4 * halfUnit)) ?_
    generalize Desk.modifyOrder _ _ _ _ _ = out at hleft ⊢
    cases out <;> exact hleft
  · rw [(modify_refused world hs fun i slot hr => hrevises ⟨i, slot, hr⟩).1]
    exact h.mono (by omega)

end Engine

end Bourse
