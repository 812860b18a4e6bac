import Bourse.Proofs.Config.Listable
import Bourse.Proofs.Wire.Records

/-!
# Values come back

The main statement is that each type of the wire format travels there and back: a value is
`received` from its `text` as it was sent, but for the minus of a zero and for a leap
second within a minute. So a text that has been read and written settles (`RoundTrips`):
from the second time on it is written as it was read, and from the first time on if no
zero in it bears a minus.

A valid configuration has no zeros that could lose a minus, since all its decimals are
positive, and it has no times. It is therefore received exactly as it was sent
(`received_of_validate`).
-/

namespace Bourse

namespace Wire

/-- The text of the value that a text stands for. -/
def rewritten? (α : Type) [Wire α] (s : String) : Option String :=
  (parse? s : Option α).map text

/-- The values of the type come back from their texts. -/
structure RoundTrips (α : Type) [Wire α] [Travels α] : Prop where
  /-- A value that `Fits`, its counts having 64 bits, is read back. -/
  parse?_text : ∀ a : α, Fits a → parse? (text a) = some (received a)
  /-- There is nothing more to lose the second time. -/
  parse?_text_received : ∀ a : α, Fits a → parse? (text (received a)) = some (received a)
  /-- Whatever has been read comes back. -/
  settles : ∀ (s : String) (a : α), parse? s = some a →
    rewritten? α (text a) = some (text (received a)) ∧
      rewritten? α (text (received a)) = some (text (received a))

theorem parse?_text {α : Type} [Wire α] [Travels α] [Faithful α] {a : α} (h : Fits a) :
    parse? (text a) = some (received a) := by
  rw [parse?, text, Json.parse?_text (legible a), Option.bind_some, decode_encode a h]

/-- What `parse?` has read fits. -/
theorem fits_of_parse? {α : Type} [Wire α] [Travels α] [Faithful α] {s : String} {a : α}
    (h : parse? s = some a) : Fits a := by
  obtain ⟨j, _, hj⟩ := Option.bind_eq_some_iff.mp h
  exact fits_of_decode hj

theorem roundTrips (α : Type) [Wire α] [Travels α] [Faithful α] : RoundTrips α := by
  have hagain : ∀ a : α, Fits a → parse? (text (received a)) = some (received a) := by
    intro a h
    have hfits : Fits (received a) := fits_of_parse? (parse?_text h)
    rw [parse?_text hfits, received_received]
  refine ⟨fun a h => parse?_text h, hagain, fun s a h => ?_⟩
  have hfits := fits_of_parse? h
  rw [rewritten?, rewritten?, parse?_text hfits, hagain a hfits]
  exact ⟨rfl, rfl⟩

/-! ## Configurations -/

section

open InstrumentConfig (AllowedBy)

theorem allowedBy_received {rule : Decimal → Prop} (h : ∀ d : Decimal, rule d.plain ↔ rule d)
    (o : Option Decimal) : AllowedBy rule (received o) ↔ AllowedBy rule o := by
  cases o with
  | none => rfl
  | some d => exact h d

theorem pos_plain (d : Decimal) : 0 < d.plain ↔ 0 < d := by
  simp [Decimal.lt_def]

theorem boundsInOrder_received (i : InstrumentConfig) :
    (received i).BoundsInOrder ↔ i.BoundsInOrder := by
  obtain ⟨symbol, tickSize, lotSize, least, most⟩ := i
  cases least <;> cases most <;>
    simp [InstrumentConfig.BoundsInOrder, AllowedBy, received, Decimal.lt_def, Decimal.le_def]

/-- `validate` does not see the minus of a zero. -/
theorem validate_received_instrument (i : InstrumentConfig) :
    (received i).validate = i.validate := by
  have htick : AllowedBy (0 < ·) (received i).tickSize ↔ AllowedBy (0 < ·) i.tickSize :=
    allowedBy_received pos_plain i.tickSize
  have hlot : AllowedBy (0 < ·) (received i).lotSize ↔ AllowedBy (0 < ·) i.lotSize :=
    allowedBy_received pos_plain i.lotSize
  have hsymbol : (received i).symbol = i.symbol := rfl
  unfold InstrumentConfig.validate
  simp only [htick, hlot, boundsInOrder_received, hsymbol]

theorem validateInstruments_received (instruments : List InstrumentConfig) :
    ∀ seen, EngineConfig.validateInstruments seen (received instruments) =
      EngineConfig.validateInstruments seen instruments := by
  induction instruments with
  | nil => exact fun _ => rfl
  | cons i instruments ih =>
    intro seen
    change EngineConfig.validateInstruments seen (received i :: received instruments) = _
    have hsymbol : (received i).symbol = i.symbol := rfl
    simp only [EngineConfig.validateInstruments, validate_received_instrument, hsymbol, ih]

theorem validate_received (c : EngineConfig) : (received c).validate = c.validate := by
  have hinstruments : EngineConfig.validateInstruments [] (received c).instruments =
      EngineConfig.validateInstruments [] c.instruments := validateInstruments_received _ []
  have hdelivery : (received c).delivery = c.delivery := rfl
  simp only [EngineConfig.validate, hinstruments, hdelivery]

/-! ### Valid configurations have no zeros -/

theorem plain_of_pos {d : Decimal} (h : 0 < d) : d.plain = d := by
  refine Decimal.plain_eq_self_iff.mpr ?_
  rintro ⟨_, hzero⟩
  have : d.atoms = 0 := (Decimal.atoms_eq_zero_iff d).mpr hzero
  rw [Decimal.lt_def, this] at h
  exact absurd h (by decide)

theorem received_of_allowed {o : Option Decimal} (h : AllowedBy (0 < ·) o) : received o = o := by
  cases o with
  | none => rfl
  | some d => exact congrArg some (plain_of_pos h)

theorem received_of_validate_instrument {i : InstrumentConfig} (h : i.validate = .ok ()) :
    received i = i := by
  unfold InstrumentConfig.validate at h
  split at h
  · cases h
  split at h
  · cases h
  split at h
  · cases h
  split at h
  · cases h
  · next htick hlot hbounds =>
    obtain ⟨hleast, hmost, _⟩ := Decidable.not_not.mp hbounds
    change ({ i with
      tickSize := received i.tickSize
      lotSize := received i.lotSize
      minQuantity := received i.minQuantity
      maxQuantity := received i.maxQuantity } : InstrumentConfig) = i
    rw [received_of_allowed (Decidable.not_not.mp htick),
      received_of_allowed (Decidable.not_not.mp hlot), received_of_allowed hleast,
      received_of_allowed hmost]

theorem received_of_valid {instruments : List InstrumentConfig}
    (h : ∀ i ∈ instruments, i.validate = .ok ()) : received instruments = instruments := by
  induction instruments with
  | nil => rfl
  | cons i instruments ih =>
    change received i :: received instruments = i :: instruments
    rw [received_of_validate_instrument (h i List.mem_cons_self),
      ih fun x hx => h x (List.mem_cons_of_mem i hx)]

theorem received_of_validate {c : EngineConfig} (h : c.validate = .ok ()) : received c = c := by
  unfold EngineConfig.validate at h
  split at h
  · cases h
  · next hinstruments =>
    change EngineConfig.mk (received c.instruments) c.delivery = c
    have hlistable := (EngineConfig.validateInstruments_spec [] c.instruments).1.mp hinstruments
    rw [received_of_valid hlistable.valid]

end

/-- `EngineConfig.ofText` says of a configuration document whether the configuration it was written
from is valid, and if so reads it as that configuration. -/
theorem ofText_text {c : EngineConfig} (h : Fits c) :
    EngineConfig.ofText (text c) = c.validate.map fun _ => c := by
  rw [EngineConfig.ofText, parse?_text h]
  change (received c).validate.map (fun _ => received c) = _
  rw [validate_received]
  cases hvalid : c.validate with
  | error e => rfl
  | ok u => rw [received_of_validate hvalid]

/-! ## All types -/

/-- Every type of the wire format `RoundTrips`. A decimal comes back with its value and its scale,
and as it was unless it is a zero with a minus; a time comes back with its text, and as it was
unless it `LeapsWithin` a minute; a configuration comes back as it was if it is valid, and with what
is wrong with it if it is not. -/
theorem every_type_round_trips :
    (RoundTrips OrderIntent ∧ RoundTrips Order ∧ RoundTrips OrderUpdate ∧ RoundTrips Trade ∧
      RoundTrips RejectReason ∧ RoundTrips Rejection ∧ RoundTrips OrderResult ∧
      RoundTrips CancelResult ∧ RoundTrips ModifyRequest ∧ RoundTrips ModifyResult ∧
      RoundTrips BookSnapshot ∧ RoundTrips InstrumentConfig ∧ RoundTrips DeliveryConfig ∧
      RoundTrips EngineConfig) ∧
    (∀ d : Decimal, (received d).SameValue d ∧ (received d).scale = d.scale ∧
      (received d = d ↔ ¬ (d.negative = true ∧ d.coeff = 0))) ∧
    (∀ t : Timestamp, (received t).text = t.text ∧
      (received t = t ↔ ¬ (t.second < 59 ∧ 1000000000 ≤ t.nanosecond))) ∧
    ∀ c : EngineConfig, Fits c → EngineConfig.ofText (text c) = c.validate.map fun _ => c := by
  refine ⟨?_, fun d => ?_, fun t => ?_, fun c h => ofText_text h⟩
  · iterate 13 refine ⟨roundTrips _, ?_⟩
    exact roundTrips _
  · exact ⟨d.atoms_plain, d.scale_plain, Decimal.plain_eq_self_iff⟩
  · exact ⟨t.text_shown, Timestamp.shown_eq_self_iff⟩

/-- A count of 64 ones, a symbol to be escaped and a scale travel as they are. -/
theorem every_type_round_trips_full_count :
    let d : DeliveryConfig := .lossless 18446744073709551615
    let s := "[18446744073709551615,\"Block\"]"
    let c : EngineConfig := ⟨[.equity "\"A\n\"", .crypto "B"], d⟩
    (Fits d ∧ parse? (text d) = some d ∧ parse? (text (received d)) = some d) ∧
      (parse? s = some d ∧ rewritten? DeliveryConfig (text d) = some (text d)) ∧
      Fits c ∧ EngineConfig.ofText (text c) = .ok c := by
  intro d s c
  obtain ⟨⟨_, _, _, _, _, _, _, _, _, _, _, _, hdelivery, _⟩, _, _, hconfig⟩ :=
    every_type_round_trips
  have hd : Fits d := by
    change 18446744073709551615 < Json.wordBound
    decide
  have hs : parse? s = some d := by decide +kernel
  refine ⟨⟨hd, hdelivery.parse?_text d hd, hdelivery.parse?_text_received d hd⟩,
    ⟨hs, (hdelivery.settles s d hs).1⟩, hd, ?_⟩
  rw [hconfig c hd]
  rfl

/-- The minus of a zero is written once and not again, and of a leap second within a minute the
second after it comes back. -/
theorem changed_on_the_way :
    let s := "\x7b\"price\":null,\"quantity\":\"-0.4e-28\"\x7d"
    let t := "\x7b\"price\":null,\"quantity\":\"-0.0000000000000000000000000000\"\x7d"
    let u := "\x7b\"price\":null,\"quantity\":\"0.0000000000000000000000000000\"\x7d"
    let update (second nanosecond : Nat)
        (h : Timestamp.IsTime 12 30 second nanosecond) : OrderUpdate :=
      ⟨⟨.ofNat 1⟩, "X", .new, 1, 0, none,
        ⟨2024, 1, 1, 12, 30, second, nanosecond, by decide, h⟩, 1⟩
    (rewritten? ModifyRequest s = some t ∧ rewritten? ModifyRequest t = some u ∧ t ≠ u) ∧
      parse? (text (update 15 1000000000 (by decide))) = some (update 16 0 (by decide)) ∧
      update 15 1000000000 (by decide) ≠ update 16 0 (by decide) := by
  intro s t u update
  have hfits : Fits (update 15 1000000000 (by decide)) := by
    change 1 < Json.wordBound
    decide
  refine ⟨by decide +kernel, ?_, by decide⟩
  exact (parse?_text hfits).trans (congrArg some (by decide))

end Wire

end Bourse
