import Bourse.Engine.Build
import Bourse.Proofs.Config.Listable
import Bourse.Proofs.Engine.Suited
import Bourse.Proofs.Run.Release

/-!
# Building an engine

`validateInstruments` checks a configuration with the symbols before each instrument in a
list of their own; an engine that lists the instruments one by one looks each symbol up
among its slots with `lookup?`. Both find the first instrument that is not valid or whose
symbol is taken, and find the same wrong with it (`addInstruments_spec`). So every way to
build an engine comes to the same verdict, and what has passed the check is listed without
fail.

A listed instrument keeps its place and its rules for good: a listing adds a slot at the
end, and no other call changes a configuration (`configs_perform`).
-/

namespace Bourse

namespace Engine

/-! ## One by one and all at once -/

/-- `lookup?` finds a symbol if it is one of those listed. -/
theorem lookup?_isSome_iff (e : Engine) (symbol : String) :
    (e.lookup? symbol).isSome ↔ symbol ∈ e.symbols := by
  have hmem : symbol ∈ e.symbols ↔
      (e.slots.findIdx? fun slot => decide (slot.config.symbol = symbol)).isSome := by
    rw [List.findIdx?_isSome, List.any_eq_true]
    simp [symbols]
  rw [hmem]
  unfold lookup?
  cases hi : e.slots.findIdx? fun slot => decide (slot.config.symbol = symbol) with
  | none => rfl
  | some i =>
      obtain ⟨hlt, -⟩ := List.findIdx?_eq_some_iff_getElem.mp hi
      change ((e.slots[i]?).bind fun slot => some (i, slot)).isSome ↔ _
      rw [List.getElem?_eq_getElem hlt]
      rfl

/-- The engine with further instruments, each with an empty book. -/
def listing (e : Engine) (instruments : List InstrumentConfig) : Engine :=
  { e with slots := e.slots ++ instruments.map fun c => ⟨c, .empty c.symbol⟩ }

theorem listing_nil (e : Engine) : e.listing [] = e := by
  unfold listing
  rw [List.map_nil, List.append_nil]

theorem listing_cons (e : Engine) (c : InstrumentConfig) (rest : List InstrumentConfig) :
    (e.listing [c]).listing rest = e.listing (c :: rest) := by
  unfold listing
  simp

theorem mem_symbols_listing (e : Engine) (c : InstrumentConfig) (s : String) :
    s ∈ (e.listing [c]).symbols ↔ s = c.symbol ∨ s ∈ e.symbols := by
  unfold listing symbols
  simp [or_comm]

/-- What `addInstrument` does, by why the instrument is `Unlistable` if it is. -/
theorem addInstrument_spec (e : Engine) (c : InstrumentConfig) :
    (∀ err, c.Unlistable e.symbols err →
      (e.addInstrument c).engine = e ∧ (e.addInstrument c).answer = .error err) ∧
    (c.validate = .ok () → c.symbol ∉ e.symbols →
      (e.addInstrument c).engine = e.listing [c] ∧ (e.addInstrument c).answer = .ok ()) := by
  unfold addInstrument
  refine ⟨fun err h => ?_, fun hv hnew => ?_⟩
  · rcases h with h | ⟨hv, htaken, rfl⟩
    · rw [h]
      exact ⟨rfl, rfl⟩
    · rw [hv]
      dsimp only
      rw [if_pos ((lookup?_isSome_iff e c.symbol).mpr htaken)]
      exact ⟨rfl, rfl⟩
  · rw [hv]
    dsimp only
    rw [if_neg fun hfound => hnew ((lookup?_isSome_iff e c.symbol).mp hfound)]
    exact ⟨rfl, rfl⟩

/-- `addInstruments` lists instruments one by one as `validateInstruments` checks them all at once.
-/
theorem addInstruments_spec (e : Engine) {taken : List String}
    (instruments : List InstrumentConfig) (htaken : ∀ s, s ∈ taken ↔ s ∈ e.symbols) :
    (e.addInstruments instruments).answer = EngineConfig.validateInstruments taken instruments ∧
      (Listable taken instruments →
        (e.addInstruments instruments).engine = e.listing instruments) := by
  induction instruments generalizing e taken with
  | nil => exact ⟨rfl, fun _ => (listing_nil e).symm⟩
  | cons c rest ih =>
      obtain ⟨hbad, hgood⟩ := addInstrument_spec e c
      have hstop {err : ConfigError} (h : c.Unlistable e.symbols err) :
          (e.addInstruments (c :: rest)).answer = .error err := by
        unfold addInstruments
        dsimp only
        rw [(hbad err h).2]
      have hgo (hv : c.validate = .ok ()) (hnew : c.symbol ∉ taken) :
          (e.addInstruments (c :: rest)).answer = ((e.listing [c]).addInstruments rest).answer ∧
            (e.addInstruments (c :: rest)).engine =
              ((e.listing [c]).addInstruments rest).engine := by
        obtain ⟨hengine, hanswer⟩ := hgood hv fun hmem => hnew ((htaken _).mpr hmem)
        rw [addInstruments]
        dsimp only
        rw [hanswer, ← hengine]
        exact ⟨rfl, rfl⟩
      have htaken' (s : String) : s ∈ c.symbol :: taken ↔ s ∈ (e.listing [c]).symbols := by
        rw [List.mem_cons, htaken, mem_symbols_listing]
      refine ⟨?_, fun hlist => ?_⟩
      · rcases EngineConfig.validateInstruments_cons taken c rest with
          ⟨err, hbad, hrun⟩ | ⟨hv, hnew, hrun⟩
        · rw [hrun]
          exact hstop (hbad.imp_right fun ⟨hv, hmem, herr⟩ => ⟨hv, (htaken _).mp hmem, herr⟩)
        · rw [hrun, (hgo hv hnew).1]
          exact (ih _ htaken').1
      · obtain ⟨hv, hnew, hrest⟩ := listable_cons.mp hlist
        rw [(hgo hv hnew).2, (ih _ htaken').2 hrest, listing_cons]

theorem addInstruments_listed {e : Engine} (h : e.Listed) (instruments : List InstrumentConfig) :
    (e.addInstruments instruments).engine.Listed := by
  induction instruments generalizing e with
  | nil => exact h
  | cons c rest ih =>
      unfold addInstruments
      dsimp only
      split
      · exact h.addInstrument c
      · exact ih (h.addInstrument c)

/-! ## Instruments stay listed -/

/-- No call takes an instrument away or changes its rules. -/
theorem configs_perform (e : Engine) (call : Call) :
    e.configs <+: (e.perform call).after.configs := by
  have hquiet (call : Call) (hcall : call.lists = false) :
      e.configs <+: (e.perform call).after.configs := by
    have hsame : (e.perform call).after.configs = e.configs :=
      unshaken_configs.perform hcall fun _ _ => trivial
    exact hsame ▸ List.prefix_rfl
  cases call with
  | addInstrument config =>
      change e.configs <+: (e.addInstrument config).engine.configs
      rcases configs_addInstrument e config with h | ⟨-, -, h⟩
      · exact h ▸ List.prefix_rfl
      · exact h ▸ List.prefix_append ..
  | submit _ _ | cancel _ _ | modify _ _ _ => exact hquiet _ rfl

theorem configs_follow (e : Engine) (past : List Turn) (calls : List Call) :
    e.configs <+: (e.follow past calls).2.configs := by
  induction calls generalizing e past with
  | nil => exact List.prefix_refl _
  | cons call rest ih => exact (configs_perform e call).trans (ih _ _)

theorem Listed.follow {e : Engine} (h : e.Listed) (past : List Turn) (calls : List Call) :
    (e.follow past calls).2.Listed := by
  induction calls generalizing e past with
  | nil => exact h
  | cons call rest ih => exact ih (h.perform call) _

/-- What `lookup?` finds is found at the same place with the same rules after any calls. -/
theorem Listed.lookup?_follow {e : Engine} (h : e.Listed) {symbol : String} {i : Nat} {slot : Slot}
    (hl : e.lookup? symbol = some (i, slot)) (calls : List Call) :
    ∃ book, (e.follow [] calls).2.lookup? symbol = some (i, { slot with book }) := by
  have hconfig : e.configs[i]? = some slot.config := by
    unfold configs
    rw [List.getElem?_map, slot_of_lookup? hl]
    rfl
  have hlater : (e.follow [] calls).2.configs[i]? = some slot.config := by
    obtain ⟨rest, hrest⟩ := configs_follow e [] calls
    have hlt := (List.getElem?_eq_some_iff.mp hconfig).1
    rw [← hrest, List.getElem?_append_left hlt, hconfig]
  unfold configs at hlater
  rw [List.getElem?_map] at hlater
  obtain ⟨later, hslot, hsame⟩ := Option.map_eq_some_iff.mp hlater
  have hfound := (h.follow [] calls).lookup?_eq hslot
  rw [hsame, symbol_of_lookup? hl] at hfound
  exact ⟨later.book, hsame ▸ hfound⟩

/-- The instruments of an engine are those given, in their order, each with an empty book. -/
structure Lists (e : Engine) (instruments : List InstrumentConfig) : Prop where
  symbols_eq : e.symbols = instruments.map InstrumentConfig.symbol
  found : ∀ i c, instruments[i]? = some c →
    e.lookup? c.symbol = some (i, ⟨c, .empty c.symbol⟩)

/-- An engine that was empty `Lists` what has been listed since. -/
theorem lists_listing {rule : MatchingRule} {instruments : List InstrumentConfig}
    (h : ((Engine.empty rule).listing instruments).Listed) :
    ((Engine.empty rule).listing instruments).Lists instruments where
  symbols_eq := by
    simp [listing, symbols, empty]
  found i c hc := by
    have hslot : ((Engine.empty rule).listing instruments).slots[i]? =
        some ⟨c, .empty c.symbol⟩ := by
      simp [listing, empty, hc]
    exact h.lookup?_eq hslot

/-- The reply of what builds an engine as the instruments deserve. -/
structure Builds (rule : MatchingRule) (instruments : List InstrumentConfig)
    (r : Reply ConfigError Unit) : Prop where
  answer_eq : r.answer = EngineConfig.validateInstruments [] instruments
  engine_eq : Listable [] instruments → r.engine = (Engine.empty rule).listing instruments
  listed : r.engine.Listed

theorem builds_addInstruments (rule : MatchingRule) (instruments : List InstrumentConfig) :
    Builds rule instruments ((Engine.empty rule).addInstruments instruments) := by
  obtain ⟨hanswer, hengine⟩ := addInstruments_spec (Engine.empty rule) instruments
    (fun s => Iff.rfl : ∀ s, s ∈ [] ↔ s ∈ (Engine.empty rule).symbols)
  exact ⟨hanswer, hengine, addInstruments_listed (listed_empty rule) instruments⟩

/-- A list that `validateInstruments` fails is not begun. -/
theorem builds_nothing {rule : MatchingRule} {instruments : List InstrumentConfig}
    {err : ConfigError}
    (h : EngineConfig.validateInstruments [] instruments = .error err) :
    Builds rule instruments ⟨.empty rule, .error err, []⟩ where
  answer_eq := h.symm
  engine_eq hlist := by
    rw [(EngineConfig.validateInstruments_spec [] instruments).1.mpr hlist] at h
    cases h
  listed := listed_empty rule

/-- The check of a configuration whose delivery is usable is that of its instruments. -/
theorem validate_eq (instruments : List InstrumentConfig) {delivery : DeliveryConfig}
    (hd : delivery.validate = .ok ()) :
    EngineConfig.validate ⟨instruments, delivery⟩ =
      EngineConfig.validateInstruments [] instruments := by
  unfold EngineConfig.validate
  dsimp only
  cases EngineConfig.validateInstruments [] instruments with
  | error err => rfl
  | ok u => exact hd

theorem builds_ofConfig (instruments : List InstrumentConfig) {delivery : DeliveryConfig}
    (hd : delivery.validate = .ok ()) :
    Builds .priceTime instruments (Engine.ofConfig ⟨instruments, delivery⟩) := by
  unfold Engine.ofConfig
  rw [validate_eq instruments hd]
  cases h : EngineConfig.validateInstruments [] instruments with
  | error err => exact builds_nothing h
  | ok u => exact builds_addInstruments .priceTime instruments

theorem builds_build (rule : MatchingRule) (instruments : List InstrumentConfig) :
    Builds rule instruments (Engine.build rule instruments) := by
  unfold Engine.build
  rw [validate_eq instruments rfl]
  cases h : EngineConfig.validateInstruments [] instruments with
  | error err => exact builds_nothing h
  | ok u =>
      obtain ⟨hanswer, hengine, hlisted⟩ := builds_addInstruments rule instruments
      dsimp only
      rw [h] at hanswer
      rw [hanswer]
      exact ⟨h.symm, hengine, hlisted⟩

end Engine

/-- However an engine is built, the same instruments come to the same verdict: they pass if all of
them are `Listable`, and fail on the first that cannot be listed. What passes is listed in its
order, and whatever is listed, then or later, keeps its place, its symbol and its rules whatever
calls follow, listings that fail among them. -/
theorem ways_to_build_agree (rule : MatchingRule) (instruments : List InstrumentConfig)
    {delivery : DeliveryConfig} (hd : delivery.validate = .ok ()) :
    let verdict := EngineConfig.validate ⟨instruments, delivery⟩
    let built : List (Reply ConfigError Unit) :=
      [(Engine.empty rule).addInstruments instruments, Engine.build rule instruments,
        Engine.ofConfig ⟨instruments, delivery⟩]
    (verdict = .ok () ↔ Listable [] instruments) ∧
      (∀ err, verdict = .error err ↔ FirstUnlistable [] instruments err) ∧
      ∀ r ∈ built, r.answer = verdict ∧
        (verdict = .ok () → r.engine.Lists instruments) ∧
        ∀ (earlier later : List Call) (symbol : String) (i : Nat) (slot : Slot),
          (r.engine.follow [] earlier).2.lookup? symbol = some (i, slot) →
            ∃ book, ((r.engine.follow [] earlier).2.follow [] later).2.lookup? symbol =
              some (i, { slot with book }) := by
  intro verdict built
  have hverdict : verdict = EngineConfig.validateInstruments [] instruments :=
    Engine.validate_eq instruments hd
  obtain ⟨hok, herr⟩ := EngineConfig.validateInstruments_spec [] instruments
  rw [hverdict]
  refine ⟨hok, herr, fun r hr => ?_⟩
  obtain ⟨rule', h⟩ : ∃ rule', Engine.Builds rule' instruments r := by
    simp only [built, List.mem_cons, List.not_mem_nil, or_false] at hr
    rcases hr with rfl | rfl | rfl
    · exact ⟨_, Engine.builds_addInstruments rule instruments⟩
    · exact ⟨_, Engine.builds_build rule instruments⟩
    · exact ⟨_, Engine.builds_ofConfig instruments hd⟩
  refine ⟨h.answer_eq, fun hpass => ?_, fun earlier later symbol i slot hl => ?_⟩
  · have hengine := h.engine_eq (hok.mp hpass)
    have hlisted := h.listed
    rw [hengine] at hlisted ⊢
    exact Engine.lists_listing hlisted
  · exact (h.listed.follow [] earlier).lookup?_follow hl later

/-- Two instruments, then the first once more under other rules, then one without a symbol. -/
def repeated : List InstrumentConfig := [.equity "X", .crypto "Y", .crypto "X", .plain " "]

/-- Listings of a symbol that is taken, of none, and of one that is free. -/
def relisting : List Call :=
  [.addInstrument (.plain "Y"), .addInstrument (.plain " "), .addInstrument (.plain "Z")]

theorem ways_to_build_agree_repeated :
    DeliveryConfig.validate (.lossless 1) = .ok () ∧
      FirstUnlistable [] repeated (.duplicateSymbol "X") ∧
      (Engine.build .priceTime repeated).answer = .error (.duplicateSymbol "X") ∧
      ∃ book, (((Engine.build .priceTime (repeated.take 2)).engine.follow [] []).2.follow []
        relisting).2.lookup? "Y" = some (1, ⟨.crypto "Y", book⟩) := by
  have hd : DeliveryConfig.validate (.lossless 1) = .ok () := rfl
  obtain ⟨-, herr, hall⟩ := ways_to_build_agree .priceTime repeated hd
  obtain ⟨-, -, hkept⟩ := ways_to_build_agree .priceTime (repeated.take 2) hd
  have hverdict : EngineConfig.validate ⟨repeated, .lossless 1⟩ =
      .error (.duplicateSymbol "X") := by
    decide +kernel
  have hbuild {instruments : List InstrumentConfig} : Engine.build .priceTime instruments ∈
      [(Engine.empty .priceTime).addInstruments instruments, Engine.build .priceTime instruments,
        Engine.ofConfig ⟨instruments, .lossless 1⟩] :=
    List.mem_cons_of_mem _ List.mem_cons_self
  obtain ⟨-, hlists, hstays⟩ := hkept _ hbuild
  have hok : EngineConfig.validate ⟨repeated.take 2, .lossless 1⟩ = .ok () := by
    decide +kernel
  refine ⟨hd, (herr _).mp hverdict, (hall _ hbuild).1.trans hverdict, ?_⟩
  exact hstays [] relisting "Y" 1 _ ((hlists hok).found 1 (.crypto "Y") rfl)

end Bourse
