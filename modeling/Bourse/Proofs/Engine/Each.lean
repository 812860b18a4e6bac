import Bourse.Proofs.Engine.Calls

/-!
# A property of every slot

`Engine.Each P` says that `P` holds of the configuration and the book of every slot. A call
works at one desk at most and puts one book back, as `Engine.leave` does, so the other slots
keep what they had. `Each.submit`, `Each.cancel` and `Each.modify` therefore ask of `P` only
that it be kept at that desk, by what `Desk.Executed`, `Desk.Cancelled` and `Desk.Modified`
say of work that has come to its end; a property of one book is carried to the engine by
them, whatever it says.
-/

namespace Bourse

namespace Engine

/-- All slots have a property of their configurations and books. -/
def Each (P : InstrumentConfig → Book → Prop) (e : Engine) : Prop :=
  ∀ (i : Nat) (slot : Slot), e.slots[i]? = some slot → P slot.config slot.book

namespace Each

variable {P Q : InstrumentConfig → Book → Prop} {e : Engine} {i : Nat} {slot : Slot} {d : Desk}
  {world : Surroundings} {id : OrderId}

theorem empty (P : InstrumentConfig → Book → Prop) (rule : MatchingRule) :
    (Engine.empty rule).Each P := by
  intro j slot hj
  cases hj

theorem mono (h : e.Each P) (hPQ : ∀ config book, P config book → Q config book) : e.Each Q :=
  fun j slot hj => hPQ _ _ (h j slot hj)

theorem unmoved {e' : Engine} (h : e.Each P) (hu : Unmoved e e') : e'.Each P :=
  fun j slot hj => h j slot (hu.slots_eq ▸ hj)

/-- Work at a desk concerns the slot of its book only. -/
theorem leave (h : e.Each P) (hslot : e.slots[i]? = some slot) (hd : P slot.config d.book) :
    (e.leave i d).Each P := by
  intro j slot' hj
  rw [slots_leave hslot] at hj
  split at hj
  · cases hj
    exact hd
  · exact h j slot' hj

/-- An instrument that is listed comes with an empty book. -/
theorem addInstrument (h : e.Each P) (config : InstrumentConfig)
    (hempty : P config (.empty config.symbol)) : (e.addInstrument config).engine.Each P := by
  intro j slot hj
  rcases slot_of_addInstrument hj with hj | ⟨rfl, -⟩
  · exact h j slot hj
  · exact hempty

theorem submit {intent : OrderIntent} {res : Except Rejection OrderResult} (h : e.Each P)
    (hs : e.Sound) (ha : (e.submit world intent).answer = .ok res)
    (hexec : ∀ {i : Nat} {slot : Slot} {r : OrderResult} {d : Desk}, res = .ok r →
      e.Admits world intent i slot → P slot.config slot.book →
      Desk.Enters (e.entering world intent)
        ((e.received i (e.entering world intent).id).desk slot.book) →
      Desk.Executed world (e.entering world intent)
        ((e.received i (e.entering world intent).id).desk slot.book) r d →
      P slot.config d.book) :
    (e.submit world intent).engine.Each P := by
  cases res with
  | error why => exact h.unmoved (submit_of_rejected hs ha).unmoved
  | ok r =>
      obtain ⟨i, slot, d, hadm, hrun, hengine, -⟩ := submit_of_ok hs ha
      have hent := hadm.enters hs.toInOrder
      have hslot := slot_of_lookup? hadm.found
      have hreceived : (e.received i (e.entering world intent).id).Each P := h
      rw [hengine]
      exact hreceived.leave hslot
        (hexec rfl hadm (h i slot hslot) hent (Desk.executed_of_ok hent.sound hrun))

theorem cancel {r : CancelResult} (h : e.Each P) (hs : e.Sound)
    (ha : (e.cancel world id).answer = .ok r)
    (hcancel : ∀ {i : Nat} {slot : Slot} {d : Desk}, e.slots[i]? = some slot →
      P slot.config slot.book → Desk.Cancelled world id (e.desk slot.book) r d →
      P slot.config d.book) :
    (e.cancel world id).engine.Each P := by
  rcases cancel_of_ok hs ha with ⟨hengine, -⟩ | ⟨i, slot, d, hl, hcancelled, hengine, -⟩
  · rw [hengine]
    exact h
  · have hslot := (route_of_locate? hl).1
    rw [hengine]
    exact h.leave hslot (hcancel hslot (h i slot hslot) hcancelled)

theorem modify {request : ModifyRequest} {r : ModifyResult} (h : e.Each P) (hs : e.Sound)
    (ha : (e.modify world id request).answer = .ok r)
    (hmod : ∀ {i : Nat} {slot : Slot} {d : Desk}, e.slots[i]? = some slot →
      checkRequest slot.config request = .ok () → P slot.config slot.book →
      Desk.Modified world id request (e.desk slot.book) r d → P slot.config d.book) :
    (e.modify world id request).engine.Each P := by
  rcases modify_of_ok hs ha with ⟨hengine, -⟩ | ⟨i, slot, d, hr, hmodified, hengine, -⟩
  · rw [hengine]
    exact h
  · have hslot := (route_of_locate? hr.found).1
    rw [hengine]
    exact h.leave hslot (hmod hslot hr.checked (h i slot hslot) hmodified)

end Each

end Engine

end Bourse
