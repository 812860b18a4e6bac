import Bourse.Proofs.Wire.Basic

/-!
# Faithful records and unions

A record is `Faithful` because its fields are, and a union because the name of a case
leads back to that case. Counts are read in a few records only, and whatever `count?`
reads of those fits, since it refuses a count with more than 64 bits; a type such as
`InstrumentConfig` has none (`Countless`).
-/

namespace Bourse.Wire

/-! ## Orders and refusals -/

instance : Faithful OrderIntent where
  legible i := .object (by simp)
  decode_encode i _ := read_object rfl (by simp) (by simp [received])
  fits_of_decode _ := trivial
  received_received i := by simp [received, Function.comp_def]

instance : Faithful Order where
  legible o := .object (by simp)
  decode_encode o h := by
    have hsequence : Fits o.sequence := h
    exact read_object rfl (by simp) (by simp [hsequence, received])
  fits_of_decode {j o} := by
    refine of_bind (fun fields _ => ?_) o
    split
    · iterate 10 refine of_bind fun _ _ => ?_
      exact of_bind fun sequence hsequence =>
        of_some (fits_of_required hsequence : Fits sequence)
    · exact of_none
  received_received o := by simp [received, Function.comp_def]

theorem decodePair_encode (ordered : Bool) {first second : String} (h : first ≠ second)
    (make : Decimal → Decimal → RejectReason) (a b : Decimal) :
    decodePair ordered first second make
      (some (.object [(first, encode a), (second, encode b)])) =
        some (make (received a) (received b)) := by
  exact read_object rfl (by simpa using h) (by simp)

instance : Countless RejectReason := ⟨fun _ => trivial⟩

instance : Solid RejectReason where
  encode_ne_null r := by cases r <;> nofun

theorem legible_reasonContent (r : RejectReason) : ∀ j ∈ reasonContent r, j.Legible := by
  intro j hj
  cases r with
  | nonPositiveQuantity | nonPositivePrice | missingLimitPrice | marketOrderWithPrice => cases hj
  | unknownSymbol | duplicateOrderId =>
    cases hj
    exact legible _
  | _ =>
    cases hj
    exact .object (by simp)

instance : Faithful RejectReason where
  legible r := by
    have hcontent := legible_reasonContent r
    change (match reasonContent r with
      | none => Json.string r.name
      | some content => encodeCase r.name content).Legible
    cases hr : reasonContent r with
    | none => exact .string r.name
    | some content =>
      refine .object fun m hm => ?_
      cases List.mem_singleton.mp hm
      exact hcontent content hr
  decode_encode r _ := by
    change decodeReason true (match reasonContent r with
      | none => Json.string r.name
      | some content => encodeCase r.name content) = _
    cases r with
    | nonPositiveQuantity | nonPositivePrice | missingLimitPrice | marketOrderWithPrice => rfl
    | unknownSymbol | duplicateOrderId =>
      simp [reasonContent, RejectReason.name, encodeCase, decodeReason, caseOf, holding,
        decode_encode, received]
    | _ =>
      simp [reasonContent, RejectReason.name, encodeCase, decodeReason, caseOf, decodePair_encode,
        received]
  fits_of_decode _ := trivial
  received_received r := by cases r <;> simp [received]

instance : Faithful Rejection where
  legible r := .object (by simp)
  decode_encode r _ := read_object rfl (by simp) (by simp [received])
  fits_of_decode _ := trivial
  received_received r := congrArg (Rejection.mk r.orderId) (received_received r.reason)

/-! ## Events and outcomes -/

instance : Faithful Trade where
  legible t := .object (by simp)
  decode_encode t h := by
    have hsequence : Fits t.sequence := h
    exact read_object rfl (by simp) (by simp [hsequence, received])
  fits_of_decode {j t} := by
    refine of_bind (fun fields _ => ?_) t
    split
    · iterate 7 refine of_bind fun _ _ => ?_
      exact of_bind fun sequence hsequence => of_bind fun _ _ =>
        of_some (fits_of_required hsequence : Fits sequence)
    · exact of_none
  received_received t := by simp [received]

instance : Faithful OrderUpdate where
  legible u := .object (by simp)
  decode_encode u h := by
    have hsequence : Fits u.sequence := h
    exact read_object rfl (by simp) (by simp [hsequence, received])
  fits_of_decode {j u} := by
    refine of_bind (fun fields _ => ?_) u
    split
    · iterate 7 refine of_bind fun _ _ => ?_
      exact of_bind fun sequence hsequence =>
        of_some (fits_of_required hsequence : Fits sequence)
    · exact of_none
  received_received u := by
    change ({ u with
      remaining := received (received u.remaining)
      filled := received (received u.filled)
      rejectReason := received (received u.rejectReason)
      timestamp := received (received u.timestamp) } : OrderUpdate) = _
    simp only [received_received]
    rfl

instance : Faithful OrderResult where
  legible r := .object (by simp)
  decode_encode r h := by
    have horder : Fits r.order := h.1
    have htrades : Fits r.trades := h.2
    exact read_object rfl (by simp) (by simp [horder, htrades, received])
  fits_of_decode {j r} := by
    refine of_bind (fun fields _ => ?_) r
    split
    · exact of_bind fun order horder => of_bind fun trades htrades =>
        of_some (⟨fits_of_required horder, fits_of_required htrades⟩ : Fits order ∧ Fits trades)
    · exact of_none
  received_received r := by
    change OrderResult.mk (received (received r.order)) (received (received r.trades)) = _
    simp only [received_received]
    rfl

instance : Faithful CancelResult where
  legible
    | .cancelled order => .object (by simp)
    | .notFound => .string _
  decode_encode
    | .cancelled order, h => by
      have horder : Fits order := h
      change (caseOf (.object [("Cancelled", encode order)])).bind _ = _
      simp [caseOf, holding, decode_encode order horder, received]
    | .notFound, _ => rfl
  fits_of_decode {j r} := by
    refine of_bind (fun _ _ => ?_) r
    split
    split
    · refine of_holding fun (order : Order) horder => ?_
      exact horder
    · exact of_bare trivial
    · exact of_none
  received_received
    | .cancelled order => congrArg CancelResult.cancelled (received_received order)
    | .notFound => rfl

instance : Faithful ModifyRequest where
  legible r := .object (by simp)
  decode_encode r _ := read_object rfl (by simp) (by simp [received])
  fits_of_decode _ := trivial
  received_received r := by simp [received, Function.comp_def]

instance : Faithful ModifyResult where
  legible
    | .modified result => .object (by simp)
    | .notFound => .string _
    | .rejected reason => .object (by simp)
  decode_encode
    | .modified result, h => by
      have hresult : Fits result := h
      change (caseOf (.object [("Modified", encode result)])).bind _ = _
      simp [caseOf, holding, decode_encode result hresult, received]
    | .notFound, _ => rfl
    | .rejected reason, _ => by
      change (caseOf (.object [("Rejected", encode reason)])).bind _ = _
      simp [caseOf, holding, decode_encode reason (Countless.fits reason), received]
  fits_of_decode {j r} := by
    refine of_bind (fun _ _ => ?_) r
    split
    split
    · refine of_holding fun (result : OrderResult) hresult => ?_
      exact hresult
    · exact of_bare trivial
    · refine of_holding fun (reason : RejectReason) _ => ?_
      exact trivial
    · exact of_none
  received_received
    | .modified result => congrArg ModifyResult.modified (received_received result)
    | .notFound => rfl
    | .rejected reason => congrArg ModifyResult.rejected (received_received reason)

instance : Faithful BookSnapshot where
  legible s := .object (by simp)
  decode_encode s _ := read_object rfl (by simp) (by simp [received])
  fits_of_decode _ := trivial
  received_received s := by simp [received, Function.comp_def]

/-! ## Configurations -/

instance : Faithful InstrumentConfig where
  legible i := .object (by simp)
  decode_encode i _ := read_object rfl (by simp) (by simp [received])
  fits_of_decode _ := trivial
  received_received i := by simp [received, Function.comp_def]

instance : Countless InstrumentConfig := ⟨fun _ => trivial⟩

instance : Faithful DeliveryConfig where
  legible d := .object (by simp)
  decode_encode d h := by
    have hcapacity : Fits d.capacity := h
    exact read_object rfl (by simp) (by simp [hcapacity, received])
  fits_of_decode {j d} := by
    refine of_bind (fun fields _ => ?_) d
    split
    · exact of_bind fun capacity hcapacity => of_bind fun _ _ =>
        of_some (fits_of_required hcapacity : Fits capacity)
    · exact of_none
  received_received _ := rfl

theorem fits_default : Fits (default : DeliveryConfig) := by
  change 65536 < Json.wordBound
  decide

instance : Faithful EngineConfig where
  legible c := .object (by simp)
  decode_encode c h := by
    have hdelivery : Fits c.delivery := h
    exact read_object rfl (by simp) (by simp [hdelivery, received])
  fits_of_decode {j c} := by
    refine of_bind (fun fields _ => ?_) c
    split
    · exact of_bind fun _ _ => of_bind fun delivery hdelivery =>
        of_some (fits_of_orDefault fits_default hdelivery : Fits delivery)
    · exact of_none
  received_received c := by
    change EngineConfig.mk (received (received c.instruments)) c.delivery = _
    rw [received_received]
    rfl

end Bourse.Wire
