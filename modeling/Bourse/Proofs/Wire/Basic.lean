import Bourse.Wire.Received
import Bourse.Proofs.Decimal.Text
import Bourse.Proofs.Json.RoundTrip
import Bourse.Proofs.Timestamp
import Bourse.Proofs.Uuid

/-!
# Faithful types

A type is `Faithful` if its values are written legibly and read back as they are to be
received, and if nothing is read that does not fit. Options, lists and pairs of faithful
values are faithful. Of a record the fields are found by name, each of them once
(`fieldsOf_object`), so the record is faithful if its fields are (`read_object`).
-/

namespace Bourse.Wire

/-- The values of the type are received as `Travels` says. -/
class Faithful (α : Type) [Wire α] [Travels α] : Prop where
  legible : ∀ a : α, (encode a).Legible
  decode_encode : ∀ a : α, Fits a → decode (encode a) = some (received a)
  fits_of_decode : ∀ {j : Json} {a : α}, decode j = some a → Fits a
  received_received : ∀ a : α, received (received a) = received a

/-- The written form is never `null`, so that `null` can stand for none. -/
class Solid (α : Type) [Wire α] : Prop where
  encode_ne_null : ∀ a : α, encode a ≠ .null

/-- No value of the type has a count in it. -/
class Countless (α : Type) [Travels α] : Prop where
  fits : ∀ a : α, Fits a

export Faithful (legible decode_encode fits_of_decode received_received)
export Solid (encode_ne_null)

attribute [simp] legible received_received Countless.fits

/-! ## Simple values -/

instance : Faithful String where
  legible s := .string s
  decode_encode _ _ := rfl
  fits_of_decode _ := trivial
  received_received _ := rfl

theorem count?_ofNat (n : Nat) :
    (Json.Number.ofNat n).count? = if n < Json.wordBound then some n else none := by
  simp [Json.Number.count?, Json.Number.isWhole, Json.Number.ofNat, Json.Number.valueOf,
    Nat.ofDigitChars_ten_toDigits]

theorem lt_of_count? {n : Json.Number} {k : Nat} (h : n.count? = some k) : k < Json.wordBound := by
  unfold Json.Number.count? at h
  split at h
  · next hcount =>
    cases h
    simp only [Bool.and_eq_true, decide_eq_true_eq] at hcount
    exact hcount.2
  · cases h

instance : Faithful Nat where
  legible n := .count n
  decode_encode n h := (count?_ofNat n).trans (if_pos h)
  fits_of_decode := by
    intro j n h
    cases j with
    | number m => exact lt_of_count? h
    | _ => cases h
  received_received _ := rfl

instance : Faithful Decimal where
  legible d := .string d.text
  decode_encode d _ := d.ofText?_text
  fits_of_decode _ := trivial
  received_received := Decimal.plain_plain

instance : Faithful Uuid where
  legible u := .string u.text
  decode_encode u _ := u.ofText?_text
  fits_of_decode _ := trivial
  received_received _ := rfl

instance : Faithful OrderId where
  legible id := .string id.uuid.text
  decode_encode id _ := congrArg (Option.map OrderId.mk) id.uuid.ofText?_text
  fits_of_decode _ := trivial
  received_received _ := rfl

instance : Faithful Timestamp where
  legible t := .string t.text
  decode_encode t _ := t.ofText?_text
  fits_of_decode _ := trivial
  received_received := Timestamp.shown_shown

instance : Solid Decimal := ⟨fun _ => nofun⟩
instance : Solid OrderId := ⟨fun _ => nofun⟩

instance : Countless String := ⟨fun _ => trivial⟩
instance : Countless Decimal := ⟨fun _ => trivial⟩
instance : Countless Uuid := ⟨fun _ => trivial⟩
instance : Countless OrderId := ⟨fun _ => trivial⟩
instance : Countless Timestamp := ⟨fun _ => trivial⟩

/-! ## Options, lists and pairs -/

theorem decodeOption_of_ne_null {α : Type} [Wire α] {j : Json} (h : j ≠ .null) :
    (decodeOption j : Option (Option α)) = (decode j).map some := by
  cases j with
  | null => exact absurd rfl h
  | _ => rfl

section

variable {α β : Type} [Wire α] [Travels α] [Faithful α] [Wire β] [Travels β] [Faithful β]

instance [Solid α] : Faithful (Option α) where
  legible
    | none => .null
    | some a => legible a
  decode_encode
    | none, _ => rfl
    | some a, h => by
      refine (decodeOption_of_ne_null (encode_ne_null a)).trans ?_
      rw [decode_encode a (h a rfl)]
      rfl
  fits_of_decode := by
    intro j o h
    by_cases hnull : j = .null
    · subst hnull
      cases h
      exact nofun
    · change decodeOption j = some o at h
      rw [decodeOption_of_ne_null hnull] at h
      obtain ⟨a, ha, rfl⟩ := Option.map_eq_some_iff.mp h
      intro b hb
      cases hb
      exact fits_of_decode ha
  received_received
    | none => rfl
    | some a => congrArg some (received_received a)

theorem mapM_decode_encode (l : List α) (h : ∀ a ∈ l, Fits a) :
    (l.map encode).mapM decode = some (l.map received) := by
  induction l with
  | nil => rfl
  | cons a l ih =>
    have hrest := ih fun b hb => h b (List.mem_cons_of_mem a hb)
    simp [decode_encode a (h a List.mem_cons_self), hrest]

theorem fits_of_mapM_decode {items : List Json} :
    ∀ {l : List α}, items.mapM decode = some l → ∀ a ∈ l, Fits a := by
  induction items with
  | nil =>
    intro l h
    cases h
    exact nofun
  | cons j items ih =>
    intro l h
    simp only [List.mapM_cons, Option.bind_eq_bind, Option.bind_eq_some_iff, Option.pure_def,
      Option.some.injEq] at h
    obtain ⟨a, ha, rest, hrest, rfl⟩ := h
    intro b hb
    rcases List.mem_cons.mp hb with rfl | hb
    · exact fits_of_decode ha
    · exact ih hrest b hb

instance : Faithful (List α) where
  legible l := .array (by simp)
  decode_encode := mapM_decode_encode
  fits_of_decode := by
    intro j l h
    cases j with
    | array items => exact fits_of_mapM_decode h
    | _ => cases h
  received_received l := by simp [received]

instance : Faithful (α × β) where
  legible p := .array (by simp)
  decode_encode p h := by
    change (do return (← decode (encode p.1), ← decode (encode p.2))) = _
    rw [decode_encode p.1 h.1, decode_encode p.2 h.2]
    rfl
  fits_of_decode := by
    intro j p h
    match j, h with
    | .array [a, b], h =>
      change (do return (← decode a, ← decode b)) = some p at h
      simp only [Option.bind_eq_bind, Option.bind_eq_some_iff, Option.pure_def,
        Option.some.injEq] at h
      obtain ⟨first, hfirst, second, hsecond, rfl⟩ := h
      exact ⟨fits_of_decode hfirst, fits_of_decode hsecond⟩
  received_received p := by simp [received]

end

section

variable {α β : Type} [Travels α] [Countless α] [Travels β] [Countless β]

instance : Countless (Option α) := ⟨fun _ a _ => Countless.fits a⟩
instance : Countless (List α) := ⟨fun _ a _ => Countless.fits a⟩
instance : Countless (α × β) := ⟨fun p => ⟨Countless.fits p.1, Countless.fits p.2⟩⟩

end

/-! ## Fields -/

theorem givenIn_of_nodup {members : List (String × Json)}
    (hnames : (members.map Prod.fst).Nodup) {m : String × Json} (hm : m ∈ members) :
    givenIn members m.1 = some (.value m.2) := by
  have hfilter : (members.filter fun m' => m'.1 = m.1) = [m] := by
    induction members with
    | nil => cases hm
    | cons first members ih =>
      rw [List.map_cons, List.nodup_cons] at hnames
      rcases List.mem_cons.mp hm with rfl | hlater
      · have hnone : ∀ m' ∈ members, ¬ m'.1 = m.1 := by
          intro m' hm' heq
          exact hnames.1 (heq ▸ List.mem_map_of_mem hm')
        simpa using hnone
      · have hfirst : ¬ first.1 = m.1 := by
          intro heq
          exact hnames.1 (heq ▸ List.mem_map_of_mem hlater)
        rw [List.filter_cons_of_neg (by simpa using hfirst), ih hnames.2 hlater]
  rw [givenIn, hfilter]

/-- `fieldsOf` gives the own fields of an object, each by its name. -/
theorem fieldsOf_object {names : List String} {members : List (String × Json)}
    (h : members.map Prod.fst = names) (hnames : names.Nodup) :
    fieldsOf names (.object members) = some (members.map fun m => .value m.2) := by
  subst h
  have hgiven : ∀ part : List (String × Json), (∀ m ∈ part, m ∈ members) →
      (part.map Prod.fst).mapM (givenIn members) = some (part.map fun m => .value m.2) := by
    intro part
    induction part with
    | nil => exact fun _ => rfl
    | cons m part ih =>
      intro hpart
      have hrest := ih fun m' hm' => hpart m' (List.mem_cons_of_mem m hm')
      simp [givenIn_of_nodup hnames (hpart m List.mem_cons_self), hrest]
  exact hgiven members fun _ hm => hm

/-- A record is read from an object with its own members if their values are read so. -/
theorem read_object {α : Type} {names : List String} {members : List (String × Json)}
    {read : List Given → Option α} {a : α} (h : members.map Prod.fst = names)
    (hnames : names.Nodup) (hread : read (members.map fun m => .value m.2) = some a) :
    (fieldsOf names (.object members)).bind read = some a := by
  rw [fieldsOf_object h hnames, Option.bind_some, hread]

section

variable {α : Type} [Wire α] [Travels α] [Faithful α]

@[simp] theorem required_encode {a : α} (h : Fits a) :
    required (.value (encode a)) = some (received a) :=
  decode_encode a h

@[simp] theorem optional_encode [Solid α] {o : Option α} (h : Fits o) :
    optional (.value (encode o)) = some (received o) :=
  decode_encode o h

@[simp] theorem orDefault_encode (default : α) {a : α} (h : Fits a) :
    orDefault default decode (.value (encode a)) = some (received a) :=
  decode_encode a h

@[simp] theorem orDefault_decodeOption_encode [Solid α] (default : Option α) {o : Option α}
    (h : Fits o) : orDefault default decodeOption (.value (encode o)) = some (received o) :=
  decode_encode o h

theorem fits_of_required {g : Given} {a : α} (h : required g = some a) : Fits a := by
  cases g with
  | value j => exact fits_of_decode h
  | _ => cases h

theorem fits_of_orDefault {default : α} (hdefault : Fits default) {g : Given} {a : α}
    (h : orDefault default decode g = some a) : Fits a := by
  cases g with
  | value j => exact fits_of_decode h
  | _ =>
    cases h
    exact hdefault

end

/-! ### What is read in the end

A property of all that a reader may read, shown along its steps. -/

section

variable {α β : Type} {P : β → Prop}

theorem of_bind {x : Option α} {f : α → Option β}
    (h : ∀ a, x = some a → ∀ b, f a = some b → P b) : ∀ b, x.bind f = some b → P b := by
  intro b hb
  obtain ⟨a, ha, hfa⟩ := Option.bind_eq_some_iff.mp hb
  exact h a ha b hfa

theorem of_some {a : β} (h : P a) : ∀ b, some a = some b → P b := by
  intro b hb
  exact Option.some.inj hb ▸ h

theorem of_none : ∀ b, none = some b → P b :=
  nofun

theorem of_bare {a : β} (h : P a) {content : Option Json} :
    ∀ b, bare a content = some b → P b := by
  intro b hb
  unfold bare at hb
  split at hb
  · exact of_some h b hb
  · exact of_some h b hb
  · cases hb

theorem of_holding [Wire α] [Travels α] [Faithful α] {make : α → β}
    (h : ∀ a, Fits a → P (make a)) {content : Option Json} :
    ∀ b, holding make content = some b → P b := by
  intro b hb
  cases content with
  | none => cases hb
  | some j =>
    obtain ⟨a, ha, rfl⟩ := Option.map_eq_some_iff.mp hb
    exact h a (fits_of_decode ha)

end

/-! ## Names -/

/-- Values that travel by name are read back if `ofName?` finds them by it. -/
theorem faithful_of_named {α : Type} [Named α]
    (h : ∀ a : α, Named.ofName? (nameOf a) = some a) :
    @Faithful α ⟨fun a => .string (nameOf a), decodeNamed⟩ ⟨fun _ => True, id⟩ := by
  let _ : Wire α := ⟨fun a => .string (nameOf a), decodeNamed⟩
  let _ : Travels α := {}
  refine ⟨fun a => .string (nameOf a), fun a _ => ?_, fun _ => trivial, fun _ => rfl⟩
  change decodeNamed (.string (nameOf a)) = some a
  simp [decodeNamed, caseOf, h, bare]

instance : Faithful Side := faithful_of_named fun a => by cases a <;> rfl
instance : Faithful OrderType := faithful_of_named fun a => by cases a <;> rfl
instance : Faithful TimeInForce := faithful_of_named fun a => by cases a <;> rfl
instance : Faithful OrderStatus := faithful_of_named fun a => by cases a <;> rfl
instance : Faithful OverflowPolicy := faithful_of_named fun a => by cases a <;> rfl

instance : Countless Side := ⟨fun _ => trivial⟩
instance : Countless OrderType := ⟨fun _ => trivial⟩
instance : Countless TimeInForce := ⟨fun _ => trivial⟩
instance : Countless OrderStatus := ⟨fun _ => trivial⟩
instance : Countless OverflowPolicy := ⟨fun _ => trivial⟩

end Bourse.Wire
