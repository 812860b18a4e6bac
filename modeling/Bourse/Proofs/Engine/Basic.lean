import Bourse.Engine.Basic
import Bourse.Proofs.Engine.Operations

/-!
# Engines in order

An engine is `InOrder` when its books are sound and its routes lead to them: an order that
rests has a route, and the route names the slot it rests in. So an identity rests in one
book at most (`InOrder.slot_unique`), and an operation on one book cannot touch what rests
in another. Order survives every outcome of every operation, the faulty ones included,
except that a modification needs its order to be live; all of them go through
`InOrder.leave`. Nothing is asked of the matching rule; an engine that is `Sound` matches
by price-time priority too.
-/

namespace Bourse

namespace Engine

/-- The order rests in the book of a slot. -/
def Rests (e : Engine) (i : Nat) (o : Order) : Prop :=
  ∃ slot, e.slots[i]? = some slot ∧ slot.book.Holds o

/-- The order `Rests` in one of the books. -/
def Resting (e : Engine) (o : Order) : Prop := ∃ i, e.Rests i o

/-- Books in order, and routes that lead to all that rests in them. -/
structure InOrder (e : Engine) : Prop where
  book : ∀ {i : Nat} {slot : Slot}, e.slots[i]? = some slot → slot.book.Sound
  valid : ∀ {i : Nat} {slot : Slot}, e.slots[i]? = some slot → slot.config.validate = .ok ()
  routed : ∀ {i : Nat} {o : Order}, e.Rests i o → ∃ r, e.routes.get? o.id = some r ∧ r.slot = i
  early : ∀ {i : Nat} {o : Order}, e.Rests i o → o.sequence ≤ e.counters.arrivals
  sized : ∀ {i : Nat} {o : Order}, e.Rests i o → o.Sized

/-- An engine that is `InOrder` and matches by price-time priority. -/
structure Sound (e : Engine) : Prop extends InOrder e where
  rule_eq : e.rule = .priceTime

theorem inOrder_empty (rule : MatchingRule) : (Engine.empty rule).InOrder where
  book h := by cases h
  valid h := by cases h
  routed := fun ⟨_, h, _⟩ => by cases h
  early := fun ⟨_, h, _⟩ => by cases h
  sized := fun ⟨_, h, _⟩ => by cases h

theorem sound_empty : (Engine.empty .priceTime).Sound := ⟨inOrder_empty _, rfl⟩

theorem Sound.fills {e : Engine} (h : e.Sound) : e.rule.Fills :=
  h.rule_eq ▸ MatchingRule.fills_priceTime

/-- An identity rests in one book at most. -/
theorem InOrder.slot_unique {e : Engine} (h : e.InOrder) {i j : Nat} {o o' : Order}
    (ho : e.Rests i o) (ho' : e.Rests j o') (hid : o.id = o'.id) : i = j := by
  obtain ⟨r, hr, rfl⟩ := h.routed ho
  obtain ⟨r', hr', rfl⟩ := h.routed ho'
  rw [hid, hr'] at hr
  cases hr
  rfl

/-- No identity rests twice. -/
theorem InOrder.eq_of_id {e : Engine} (h : e.InOrder) {i j : Nat} {o o' : Order}
    (ho : e.Rests i o) (ho' : e.Rests j o') (hid : o.id = o'.id) : o = o' := by
  obtain rfl := h.slot_unique ho ho' hid
  obtain ⟨slot, hslot, ho⟩ := ho
  obtain ⟨slot', hslot', ho'⟩ := ho'
  rw [hslot] at hslot'
  cases hslot'
  exact (h.book hslot).eq_of_id ho ho' hid

/-! ## Leaving a desk -/

section Leave

variable {e : Engine} {i : Nat} {slot : Slot} {d : Desk}

theorem slots_leave (hslot : e.slots[i]? = some slot) (d : Desk) (j : Nat) :
    (e.leave i d).slots[j]? =
      if j = i then some { slot with book := d.book } else e.slots[j]? := by
  change (e.slots.modify i fun slot => { slot with book := d.book })[j]? = _
  rw [List.getElem?_modify]
  by_cases hj : j = i
  · subst hj
    rw [hslot]
    simp
  · have hne : ¬ i = j := fun h => hj h.symm
    simp [hj, hne]

theorem rests_leave (hslot : e.slots[i]? = some slot) {j : Nat} {o : Order} :
    (e.leave i d).Rests j o ↔ (j = i ∧ d.book.Holds o) ∨ (j ≠ i ∧ e.Rests j o) := by
  unfold Rests
  rw [slots_leave hslot]
  by_cases hj : j = i
  · rw [if_pos hj]
    constructor
    · rintro ⟨s, hs, ho⟩
      cases hs
      exact Or.inl ⟨hj, ho⟩
    · rintro (⟨-, ho⟩ | ⟨hne, -⟩)
      · exact ⟨_, rfl, ho⟩
      · exact absurd hj hne
  · rw [if_neg hj]
    constructor
    · exact fun h => Or.inr ⟨hj, h⟩
    · rintro (⟨heq, -⟩ | ⟨-, h⟩)
      · exact absurd heq hj
      · exact h

/-- Work on behalf of an identity that is routed to the slot leaves an engine `InOrder`. -/
theorem InOrder.leave {id : OrderId} (h : e.InOrder) (hslot : e.slots[i]? = some slot)
    (hroute : ∃ r, e.routes.get? id = some r ∧ r.slot = i)
    (hw : Desk.Worked id (Desk.Welcome id d) (e.desk slot.book) d) : (e.leave i d).InOrder := by
  have hrests {o : Order} (ho : slot.book.Holds o) : e.Rests i o := ⟨slot, hslot, ho⟩
  have helse {j : Nat} {o : Order} (hj : j ≠ i) (ho : e.Rests j o) :
      d.routes.get? o.id = e.routes.get? o.id := by
    refine hw.route_eq o.id (Or.inr ⟨?_, ?_⟩)
    · rintro rfl
      obtain ⟨r, hr, hri⟩ := hroute
      obtain ⟨r', hr', hrj⟩ := h.routed ho
      rw [hr] at hr'
      cases hr'
      exact hj (hrj.symm.trans hri)
    · rintro ⟨o', ho', hid⟩
      exact hj (h.slot_unique ho (hrests ho') hid.symm)
  refine ⟨fun {j s} hs => ?_, fun {j s} hs => ?_, fun {j o} ho => ?_, fun {j o} ho => ?_,
    fun {j o} ho => ?_⟩
  · rw [slots_leave hslot] at hs
    split at hs
    · cases hs
      exact hw.sound
    · exact h.book hs
  · rw [slots_leave hslot] at hs
    split at hs
    · cases hs
      exact (h.valid hslot : slot.config.validate = .ok ())
    · exact h.valid hs
  · change ∃ r, d.routes.get? o.id = some r ∧ r.slot = j
    rcases (rests_leave hslot).mp ho with ⟨rfl, hx⟩ | ⟨hj, hx⟩
    · rw [hw.route_eq o.id (Or.inl ⟨o, hx, rfl⟩)]
      rcases hw.holds o hx with ⟨o', ho', hf⟩ | hn
      · rw [hf.same.id_eq]
        exact h.routed (hrests ho')
      · rw [hn.id_eq]
        exact hroute
    · rw [helse hj hx]
      exact h.routed hx
  · change o.sequence ≤ d.counters.arrivals
    rcases (rests_leave hslot).mp ho with ⟨rfl, hx⟩ | ⟨hj, hx⟩
    · rcases hw.holds o hx with ⟨o', ho', hf⟩ | hn
      · rw [hf.same.sequence_eq]
        exact Nat.le_trans (h.early (hrests ho')) hw.arrivals_le
      · exact hn.early
    · exact Nat.le_trans (h.early hx) hw.arrivals_le
  · rcases (rests_leave hslot).mp ho with ⟨rfl, hx⟩ | ⟨hj, hx⟩
    · rcases hw.holds o hx with ⟨o', ho', hf⟩ | hn
      · exact hf.sized (h.sized (hrests ho'))
      · exact hn.sized
    · exact h.sized hx

/-- A book that is put back as it was taken changes no slot. -/
theorem slots_leave_same (hslot : e.slots[i]? = some slot) (hbook : d.book = slot.book) :
    (e.leave i d).slots = e.slots := by
  refine List.ext_getElem? fun j => ?_
  rw [slots_leave hslot, hbook]
  split
  · next hj => rw [hj, hslot]
  · rfl

theorem leave_same (hslot : e.slots[i]? = some slot) (hbook : d.book = slot.book) :
    e.leave i d = { e with routes := d.routes, counters := d.counters } := by
  show (⟨e.rule, (e.leave i d).slots, d.routes, d.counters⟩ : Engine) = _
  rw [slots_leave_same hslot hbook]

end Leave

/-- Nothing has happened to the books and the routes. -/
structure Unmoved (e e' : Engine) : Prop where
  rule_eq : e'.rule = e.rule
  slots_eq : e'.slots = e.slots
  routes_eq : e'.routes = e.routes
  arrivals_le : e.counters.arrivals ≤ e'.counters.arrivals

theorem Unmoved.rests_iff {e e' : Engine} (h : Unmoved e e') {i : Nat} {o : Order} :
    e'.Rests i o ↔ e.Rests i o := by
  unfold Rests
  rw [h.slots_eq]

theorem Unmoved.inOrder {e e' : Engine} (h : Unmoved e e') (hs : e.InOrder) : e'.InOrder where
  book hslot := hs.book (h.slots_eq ▸ hslot)
  valid hslot := hs.valid (h.slots_eq ▸ hslot)
  routed ho := by
    rw [h.routes_eq]
    exact hs.routed (h.rests_iff.mp ho)
  early ho := Nat.le_trans (hs.early (h.rests_iff.mp ho)) h.arrivals_le
  sized ho := hs.sized (h.rests_iff.mp ho)

theorem Unmoved.sound {e e' : Engine} (h : Unmoved e e') (hs : e.Sound) : e'.Sound :=
  ⟨h.inOrder hs.toInOrder, h.rule_eq.trans hs.rule_eq⟩

end Engine

end Bourse
