import Bourse.Proofs.Engine.Calls

/-!
# Listed instruments

The `configs` of an engine change by listings alone. No call touches them otherwise,
whatever stops it (`unshaken_configs`). `addInstrument` validates a listing and refuses it
if its symbol is there already, so on an engine that is `Listed` every instrument is
valid, symbols are distinct, and an instrument is what `lookup?` finds under its symbol.
The search of the slots therefore answers as a map from symbols to slots would.
-/

namespace Bourse

namespace Engine

/-- The configurations of the instruments in the order of their listing. -/
def configs (e : Engine) : List InstrumentConfig := e.slots.map Slot.config

/-- Every instrument is valid and has a symbol of its own. -/
structure Listed (e : Engine) : Prop where
  valid : ∀ c ∈ e.configs, c.validate = .ok ()
  distinct : (e.configs.map InstrumentConfig.symbol).Nodup

section Listed

variable {e e' : Engine} {i : Nat} {slot : Slot}

theorem listed_empty (rule : MatchingRule) : (Engine.empty rule).Listed :=
  ⟨fun c hc => (by cases hc), List.nodup_nil⟩

theorem Listed.of_configs (h : e.Listed) (heq : e'.configs = e.configs) : e'.Listed :=
  ⟨heq ▸ h.valid, heq ▸ h.distinct⟩

theorem Listed.slot_valid (h : e.Listed) (hslot : e.slots[i]? = some slot) :
    slot.config.validate = .ok () :=
  h.valid _ (List.mem_map_of_mem (List.mem_of_getElem? hslot))

/-- A listed instrument is what `lookup?` finds under its symbol. -/
theorem Listed.lookup?_eq (h : e.Listed) (hslot : e.slots[i]? = some slot) :
    e.lookup? slot.config.symbol = some (i, slot) := by
  obtain ⟨hlt, rfl⟩ := List.getElem?_eq_some_iff.mp hslot
  have hfirst : e.slots.findIdx? (fun s => decide (s.config.symbol = e.slots[i].config.symbol)) =
      some i := by
    refine List.findIdx?_eq_some_iff_getElem.mpr ⟨hlt, decide_eq_true rfl, fun j hj hsame => ?_⟩
    have hdistinct := List.pairwise_iff_getElem.mp h.distinct j i (by simp [configs]; omega)
      (by simp [configs]; omega) hj
    simp only [configs, List.getElem_map] at hdistinct
    exact hdistinct (of_decide_eq_true hsame)
  unfold lookup?
  rw [hfirst]
  change (e.slots[i]?).bind (fun slot => some (i, slot)) = _
  rw [hslot]
  rfl

theorem configs_addInstrument (e : Engine) (config : InstrumentConfig) :
    (e.addInstrument config).engine.configs = e.configs ∨
      (config.validate = .ok () ∧ (e.lookup? config.symbol).isSome = false ∧
        (e.addInstrument config).engine.configs = e.configs ++ [config]) := by
  unfold addInstrument
  split
  · exact Or.inl rfl
  · next hv =>
      split
      · exact Or.inl rfl
      · next hnew =>
          refine Or.inr ⟨hv, Bool.eq_false_iff.mpr hnew, ?_⟩
          exact List.map_append ..

theorem Listed.addInstrument (h : e.Listed) (config : InstrumentConfig) :
    (e.addInstrument config).engine.Listed := by
  rcases configs_addInstrument e config with heq | ⟨hv, hnew, heq⟩
  · exact h.of_configs heq
  · refine ⟨fun c hc => ?_, ?_⟩
    · rw [heq] at hc
      rcases List.mem_append.mp hc with hc | hc
      · exact h.valid c hc
      · rw [List.mem_singleton.mp hc]
        exact hv
    · rw [heq, List.map_append]
      refine List.nodup_append.mpr
        ⟨h.distinct, List.pairwise_singleton .., fun s hs s' hs' hsame => ?_⟩
      obtain ⟨c, hc, rfl⟩ := List.mem_map.mp hs
      obtain ⟨old, hold, rfl⟩ := List.mem_map.mp hc
      obtain ⟨j, hj⟩ := List.getElem?_of_mem hold
      have hsymbol : old.config.symbol = config.symbol := by
        rw [hsame]
        exact List.mem_singleton.mp hs'
      rw [← hsymbol, h.lookup?_eq hj] at hnew
      cases hnew

end Listed

/-! ## Work at a desk leaves the configurations alone -/

theorem configs_leave (e : Engine) (i : Nat) (d : Desk) : (e.leave i d).configs = e.configs := by
  refine List.ext_getElem? fun j => ?_
  unfold configs
  rw [List.getElem?_map, List.getElem?_map]
  change ((e.slots.modify i fun slot => { slot with book := d.book })[j]?).map Slot.config = _
  rw [List.getElem?_modify]
  cases e.slots[j]? with
  | none => rfl
  | some s =>
      change some (Slot.config (if i = j then { s with book := d.book } else s)) = some s.config
      split <;> rfl

theorem unshaken_configs : Unshaken (fun _ => True) configs :=
  ⟨fun _ _ _ => rfl, fun _ _ => rfl, fun e i d _ => configs_leave e i d⟩

end Engine

end Bourse
