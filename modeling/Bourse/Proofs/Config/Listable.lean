import Mathlib.Tactic.Tauto
import Bourse.Config.Engine

/-!
# Instruments that can be listed

`validateInstruments` checks one instrument after the other, with the symbols before it in
a list of their own. It passes if the instruments are `Listable`, every one valid and
every symbol its own; if not, it names the `FirstUnlistable` instrument, one that is not
valid or whose symbol is taken, and what is wrong with it. Both follow from
`validateInstruments_cons` by induction on the list.
-/

namespace Bourse

/-- An instrument cannot be listed after others with the symbols in `taken`: it is not valid, or it
is but its symbol is taken. -/
def InstrumentConfig.Unlistable (taken : List String) (c : InstrumentConfig)
    (err : ConfigError) : Prop :=
  c.validate = .error err ∨
    (c.validate = .ok () ∧ c.symbol ∈ taken ∧ err = .duplicateSymbol c.symbol)

/-- Instruments that can be listed after others with the symbols in `taken`: they are valid, and
their symbols are their own. -/
structure Listable (taken : List String) (instruments : List InstrumentConfig) : Prop where
  valid : ∀ c ∈ instruments, c.validate = .ok ()
  fresh : ∀ c ∈ instruments, c.symbol ∉ taken
  distinct : (instruments.map InstrumentConfig.symbol).Nodup

/-- The first instrument that is `Unlistable` after those before it, and what is wrong with it. -/
def FirstUnlistable (taken : List String) (instruments : List InstrumentConfig)
    (err : ConfigError) : Prop :=
  ∃ good c rest, instruments = good ++ c :: rest ∧ Listable taken good ∧
    c.Unlistable (taken ++ good.map InstrumentConfig.symbol) err

theorem listable_nil (taken : List String) : Listable taken [] :=
  ⟨fun x hx => (by cases hx), fun x hx => (by cases hx), List.nodup_nil⟩

theorem listable_cons {taken : List String} {c : InstrumentConfig}
    {rest : List InstrumentConfig} :
    Listable taken (c :: rest) ↔
      c.validate = .ok () ∧ c.symbol ∉ taken ∧ Listable (c.symbol :: taken) rest := by
  constructor
  · intro h
    obtain ⟨hnew, hdistinct⟩ := List.nodup_cons.mp h.distinct
    refine ⟨h.valid c List.mem_cons_self, h.fresh c List.mem_cons_self,
      fun x hx => h.valid x (List.mem_cons_of_mem _ hx), fun x hx => ?_, hdistinct⟩
    have hx' := h.fresh x (List.mem_cons_of_mem _ hx)
    have hne : x.symbol ≠ c.symbol := fun heq => hnew (heq ▸ List.mem_map_of_mem hx)
    simp [hx', hne]
  · rintro ⟨hv, hnew, h⟩
    refine ⟨fun x hx => ?_, fun x hx => ?_, List.nodup_cons.mpr ⟨fun hmem => ?_, h.distinct⟩⟩
    · rcases List.mem_cons.mp hx with rfl | hx
      · exact hv
      · exact h.valid x hx
    · rcases List.mem_cons.mp hx with rfl | hx
      · exact hnew
      · exact fun hmem => h.fresh x hx (List.mem_cons_of_mem _ hmem)
    · obtain ⟨x, hx, heq⟩ := List.mem_map.mp hmem
      exact h.fresh x hx (heq ▸ List.mem_cons_self)

/-- An instrument that can be listed is not the `FirstUnlistable`. -/
theorem firstUnlistable_cons {taken : List String} {c : InstrumentConfig}
    {rest : List InstrumentConfig} {err : ConfigError} (hv : c.validate = .ok ())
    (hnew : c.symbol ∉ taken) :
    FirstUnlistable taken (c :: rest) err ↔ FirstUnlistable (c.symbol :: taken) rest err := by
  have hsame (good : List InstrumentConfig) (x : InstrumentConfig) :
      x.Unlistable (taken ++ (c :: good).map InstrumentConfig.symbol) err ↔
        x.Unlistable (c.symbol :: taken ++ good.map InstrumentConfig.symbol) err := by
    have hmem : x.symbol ∈ taken ++ (c :: good).map InstrumentConfig.symbol ↔
        x.symbol ∈ c.symbol :: taken ++ good.map InstrumentConfig.symbol := by
      simp only [List.map_cons, List.cons_append, List.mem_append, List.mem_cons]
      tauto
    unfold InstrumentConfig.Unlistable
    rw [hmem]
  constructor
  · rintro ⟨good, x, later, heq, hgood, hx⟩
    cases good with
    | nil =>
        cases heq
        rcases hx with hx | ⟨-, hx, -⟩
        · rw [hv] at hx
          cases hx
        · rw [List.map_nil, List.append_nil] at hx
          exact absurd hx hnew
    | cons g good =>
        cases heq
        exact ⟨good, x, later, rfl, (listable_cons.mp hgood).2.2, (hsame good x).mp hx⟩
  · rintro ⟨good, x, later, rfl, hgood, hx⟩
    exact ⟨c :: good, x, later, rfl, listable_cons.mpr ⟨hv, hnew, hgood⟩, (hsame good x).mpr hx⟩

namespace InstrumentConfig

variable {taken : List String} {c : InstrumentConfig} {err err' : ConfigError}

/-- There is one thing wrong with an instrument. -/
theorem Unlistable.unique (h : c.Unlistable taken err) (h' : c.Unlistable taken err') :
    err' = err := by
  rcases h with h | ⟨hv, -, rfl⟩ <;> rcases h' with h' | ⟨hv', -, rfl⟩
  · rw [h] at h'
    cases h'
    rfl
  · rw [h] at hv'
    cases hv'
  · rw [hv] at h'
    cases h'
  · rfl

theorem Unlistable.not_listable (h : c.Unlistable taken err) (rest : List InstrumentConfig) :
    ¬ Listable taken (c :: rest) := by
  intro hlist
  obtain ⟨hv, hnew, -⟩ := listable_cons.mp hlist
  rcases h with h | ⟨-, h, -⟩
  · rw [hv] at h
    cases h
  · exact hnew h

end InstrumentConfig

/-- An `Unlistable` instrument at the head is the first. -/
theorem firstUnlistable_of_unlistable {taken : List String} {c : InstrumentConfig}
    {rest : List InstrumentConfig} {err err' : ConfigError} (h : c.Unlistable taken err) :
    FirstUnlistable taken (c :: rest) err' ↔ err' = err := by
  constructor
  · rintro ⟨good, x, later, heq, hgood, hx⟩
    cases good with
    | nil =>
        cases heq
        rw [List.map_nil, List.append_nil] at hx
        exact h.unique hx
    | cons g good =>
        cases heq
        exact absurd hgood (h.not_listable good)
  · rintro rfl
    refine ⟨[], c, rest, rfl, listable_nil taken, ?_⟩
    rw [List.map_nil, List.append_nil]
    exact h

namespace EngineConfig

/-- The check of a list ends with its first instrument or goes on behind it. -/
theorem validateInstruments_cons (taken : List String) (c : InstrumentConfig)
    (rest : List InstrumentConfig) :
    (∃ err, c.Unlistable taken err ∧ validateInstruments taken (c :: rest) = .error err) ∨
      (c.validate = .ok () ∧ c.symbol ∉ taken ∧
        validateInstruments taken (c :: rest) = validateInstruments (c.symbol :: taken) rest) := by
  rw [validateInstruments]
  cases hv : c.validate with
  | error err => exact Or.inl ⟨err, Or.inl hv, rfl⟩
  | ok u =>
      by_cases htaken : c.symbol ∈ taken
      · exact Or.inl ⟨_, Or.inr ⟨hv, htaken, rfl⟩, if_pos htaken⟩
      · exact Or.inr ⟨rfl, htaken, if_neg htaken⟩

/-- `validateInstruments` passes a list if all of it is `Listable`, and fails on the first that is
not. -/
theorem validateInstruments_spec (taken : List String) (instruments : List InstrumentConfig) :
    (validateInstruments taken instruments = .ok () ↔ Listable taken instruments) ∧
      ∀ err, validateInstruments taken instruments = .error err ↔
        FirstUnlistable taken instruments err := by
  induction instruments generalizing taken with
  | nil =>
      refine ⟨⟨fun _ => listable_nil taken, fun _ => rfl⟩, fun err => ⟨fun h => (by cases h), ?_⟩⟩
      rintro ⟨good, c, rest, heq, -⟩
      exact absurd heq.symm (List.append_ne_nil_of_right_ne_nil good (List.cons_ne_nil c rest))
  | cons c rest ih =>
      rcases validateInstruments_cons taken c rest with ⟨err, hbad, hrun⟩ | ⟨hv, hnew, hrun⟩
      · rw [hrun]
        refine ⟨⟨fun hok => (by cases hok), fun hlist => absurd hlist (hbad.not_listable rest)⟩,
          fun err' => ?_⟩
        rw [firstUnlistable_of_unlistable hbad, Except.error.injEq]
        exact eq_comm
      · obtain ⟨hok, herr⟩ := ih (c.symbol :: taken)
        rw [hrun]
        refine ⟨hok.trans ?_, fun err => (herr err).trans (firstUnlistable_cons hv hnew).symm⟩
        rw [listable_cons]
        exact ⟨fun h => ⟨hv, hnew, h⟩, fun h => h.2.2⟩

end EngineConfig

end Bourse
