import Bourse.Json.Reader
import Bourse.Json.Writer
import Bourse.Proofs.Numerals

/-!
# Written JSON is read back

A written value is read back as it was, whatever follows it, if it is `Legible`: its
numbers are counts and nothing in it is garbled. The readers are led by the first
character of a value, so the proof goes by what that character can be (`Legible.opens`).
Between two values `writeTo` leaves no blanks, so the readers have none to skip.

Each step of the readers costs fuel; that the fuel is enough follows from the length of
the text, of which each step but one in two uses up a character. `ReadBack` says so of one
value, and is shown by induction on `Legible`.
-/

namespace Bourse.Json

/-! ## Strings -/

theorem hexCode?_hexChar :
    ∀ n < 0x20, hexCode? '0' '0' (hexChar (n / 16)) (hexChar n) = some n := by
  decide

theorem ofCode_toNat {c : Char} (h : c.toNat < 0x20) : Piece.ofCode c.toNat = .char c := by
  have hhalf : ¬ (0xD800 ≤ c.toNat ∧ c.toNat < 0xE000) := by omega
  simp [Piece.ofCode, hhalf, Char.ofNat_toNat]

/-- What `escape` writes of a character is read as that character. -/
theorem readPieces_escape (c : Char) (rest : List Char) :
    readPieces (escape c ++ rest) = prepend (.char c) (readPieces rest) := by
  unfold escape
  split
  · next h => subst h; rfl
  split
  · next h => subst h; rfl
  split
  · next h => subst h; rfl
  split
  · next h => subst h; rfl
  split
  · next h => subst h; rfl
  split
  · next h => subst h; rfl
  split
  · next h => subst h; rfl
  split
  · next hlow =>
      simp only [List.cons_append, List.nil_append, readPieces]
      simp only [hexCode?_hexChar c.toNat hlow, ofCode_toNat hlow, Option.bind_eq_bind,
        Option.bind_some]
  · next hquote hback _ _ _ _ _ hlow =>
      rw [List.cons_append, List.nil_append, readPieces]
      · exact if_neg hlow
      · exact hquote
      · exact fun _ _ _ _ _ h _ => hback h
      · exact fun _ _ h _ => hback h

theorem readPieces_flatMap (cs rest : List Char) :
    readPieces (cs.flatMap escape ++ '"' :: rest) = some (cs.map .char, rest) := by
  induction cs with
  | nil => rfl
  | cons c cs ih =>
    rw [List.flatMap_cons, List.append_assoc, readPieces_escape, ih]
    rfl

theorem readString_flatMap (s : String) (rest : List Char) :
    readString (s.toList.flatMap escape ++ '"' :: rest) = some (some s, rest) := by
  simp [readString, readPieces_flatMap, spell?_char]

theorem quote_append (s : String) (rest : List Char) :
    quote s ++ rest = '"' :: (s.toList.flatMap escape ++ '"' :: rest) := by
  simp [quote]

/-! ## Counts -/

/-- The text does not go on with a character of a number. -/
def EndsNumber (rest : List Char) : Prop :=
  ∀ c ∈ rest.head?, c.isDigit = false ∧ c ≠ '.' ∧ c ≠ 'e' ∧ c ≠ 'E'

theorem EndsNumber.nil : EndsNumber [] := by
  intro c hc
  cases hc

theorem EndsNumber.of_cons {c : Char} (rest : List Char)
    (h : c.isDigit = false ∧ c ≠ '.' ∧ c ≠ 'e' ∧ c ≠ 'E') : EndsNumber (c :: rest) := by
  intro c' hc'
  cases hc'
  exact h

theorem readDigits_append {ds rest : List Char} (hds : ∀ c ∈ ds, c.isDigit = true) (hne : ds ≠ [])
    (hrest : EndsNumber rest) : readDigits (ds ++ rest) = some (ds, rest) := by
  have hhead : ∀ c ∈ rest.head?, c.isDigit = false := fun c hc => (hrest c hc).1
  simp [readDigits, Numeral.takeWhile_append hds hhead, Numeral.dropWhile_append hds hhead, hne]

theorem readWhole_toDigits (n : Nat) {rest : List Char} (hrest : EndsNumber rest) :
    readWhole (Nat.toDigits 10 n ++ rest) = some (Nat.toDigits 10 n, rest) := by
  have hlead : ¬ ((Nat.toDigits 10 n).head? = some '0' ∧ Nat.toDigits 10 n ≠ ['0']) := by
    rintro ⟨hzero, hne⟩
    exact hne (by rw [Numeral.eq_zero_of_head? hzero]; rfl)
  simp only [readWhole, readDigits_append Numeral.isDigit_of_mem Nat.toDigits_ne_nil hrest,
    Option.bind_some, if_neg hlead]

theorem readFraction_of_endsNumber {rest : List Char} (h : EndsNumber rest) :
    readFraction rest = some ([], rest) := by
  unfold readFraction
  split
  · exact absurd rfl (h '.' rfl).2.1
  · rfl

theorem readExponent_of_endsNumber {rest : List Char} (h : EndsNumber rest) :
    readExponent rest = some (none, rest) := by
  unfold readExponent
  split
  · exact absurd rfl (h 'e' rfl).2.2.1
  · exact absurd rfl (h 'E' rfl).2.2.2
  · rfl

@[simp] theorem toChars_ofNat (n : Nat) : (Number.ofNat n).toChars = Nat.toDigits 10 n := by
  simp [Number.toChars, Number.ofNat]

theorem isSpace_of_isDigit {c : Char} (h : c.isDigit = true) : isSpace c = false := by
  simp only [isSpace, Bool.or_eq_false_iff, beq_eq_false_iff_ne]
  refine ⟨⟨⟨?_, ?_⟩, ?_⟩, ?_⟩ <;>
  · rintro rfl
    cases h

theorem readNumber_toDigits (n : Nat) {rest : List Char} (hrest : EndsNumber rest) :
    readNumber (Nat.toDigits 10 n ++ rest) = some (.ofNat n, rest) := by
  obtain ⟨c, more, h, hc⟩ := Numeral.exists_cons n
  have hminus : c ≠ '-' := by
    rintro rfl
    cases hc
  have hwhole := readWhole_toDigits n hrest
  rw [h, List.cons_append] at hwhole ⊢
  simp [readNumber, hminus, hwhole, readFraction_of_endsNumber hrest,
    readExponent_of_endsNumber hrest, Number.ofNat, h]

/-! ## Values -/

/-- Nothing in the value is garbled and its numbers are counts. -/
inductive Legible : Json → Prop where
  | null : Legible .null
  | bool (b : Bool) : Legible (.bool b)
  | count (n : Nat) : Legible (.ofNat n)
  | string (s : String) : Legible (.string s)
  | array {items : List Json} : (∀ j ∈ items, Legible j) → Legible (.array items)
  | object {members : List (String × Json)} :
      (∀ m ∈ members, Legible m.2) → Legible (.object members)

theorem writeTo_ofNat (n : Nat) (rest : List Char) :
    writeTo (.ofNat n) rest = Nat.toDigits 10 n ++ rest := by
  simp [ofNat, writeTo]

/-- The first character of a value tells it from a blank and from the end of an array. -/
theorem Legible.opens {j : Json} (h : Legible j) (rest : List Char) :
    ∃ c more, writeTo j rest = c :: more ∧ isSpace c = false ∧ c ≠ ']' := by
  cases h with
  | null => exact ⟨'n', _, rfl, rfl, by decide⟩
  | bool b =>
    cases b with
    | true => exact ⟨'t', _, rfl, rfl, by decide⟩
    | false => exact ⟨'f', _, rfl, rfl, by decide⟩
  | count n =>
    obtain ⟨c, more, hn, hc⟩ := Numeral.exists_cons n
    refine ⟨c, more ++ rest, by rw [writeTo_ofNat, hn, List.cons_append],
      isSpace_of_isDigit hc, ?_⟩
    rintro rfl
    cases hc
  | string s => exact ⟨'"', _, rfl, rfl, by decide⟩
  | @array items _ =>
    cases items with
    | nil => exact ⟨'[', _, rfl, rfl, by decide⟩
    | cons item items => exact ⟨'[', _, rfl, rfl, by decide⟩
  | @object members _ =>
    cases members with
    | nil => exact ⟨'\x7b', _, rfl, rfl, by decide⟩
    | cons m members => exact ⟨'\x7b', _, rfl, rfl, by decide⟩

/-! ### Lengths -/

theorem length_writeItems {items : List Json}
    (h : ∀ j ∈ items, ∀ rest, rest.length < (writeTo j rest).length) (rest : List Char) :
    rest.length < (writeItems items rest).length := by
  induction items with
  | nil => simp [writeItems]
  | cons item items ih =>
    have htail := ih fun j hj => h j (List.mem_cons_of_mem item hj)
    have hitem := h item List.mem_cons_self (writeItems items rest)
    simp only [writeItems, List.length_cons]
    omega

theorem length_writeMembers {members : List (String × Json)}
    (h : ∀ m ∈ members, ∀ rest, rest.length < (writeTo m.2 rest).length) (rest : List Char) :
    rest.length < (writeMembers members rest).length := by
  induction members with
  | nil => simp [writeMembers]
  | cons m members ih =>
    have htail := ih fun m hm => h m (List.mem_cons_of_mem _ hm)
    have hvalue := h m List.mem_cons_self (writeMembers members rest)
    simp only [writeMembers, List.length_cons, List.length_append]
    omega

/-- A value is written with one character at least. -/
theorem Legible.longer {j : Json} (h : Legible j) :
    ∀ rest : List Char, rest.length < (writeTo j rest).length := by
  induction h with
  | null =>
    intro rest
    simp only [writeTo, List.length_append]
    exact Nat.lt_add_of_pos_left (by decide)
  | bool b =>
    intro rest
    cases b <;> simp only [writeTo, List.length_append] <;>
      exact Nat.lt_add_of_pos_left (by decide)
  | count n =>
    intro rest
    rw [writeTo_ofNat, List.length_append]
    have := Nat.length_toDigits_pos (b := 10) (n := n)
    omega
  | string s =>
    intro rest
    simp only [writeTo, quote_append, List.length_cons, List.length_append]
    omega
  | @array items _ ih =>
    intro rest
    cases items with
    | nil => simp only [writeTo, List.length_cons]; omega
    | cons item items =>
      have htail := length_writeItems (fun j hj => ih j (List.mem_cons_of_mem item hj)) rest
      have hitem := ih item List.mem_cons_self (writeItems items rest)
      simp only [writeTo, List.length_cons]
      omega
  | @object members _ ih =>
    intro rest
    cases members with
    | nil => simp only [writeTo, List.length_cons]; omega
    | cons m members =>
      have htail := length_writeMembers (fun m hm => ih m (List.mem_cons_of_mem _ hm)) rest
      have hvalue := ih m List.mem_cons_self (writeMembers members rest)
      simp only [writeTo, List.length_cons, List.length_append]
      omega

/-! ### Reading -/

/-- A value is read back off the front of what it was written to, if the fuel pays for its
own length twice. -/
def ReadBack (j : Json) : Prop :=
  ∀ (rest : List Char) (fuel : Nat), EndsNumber rest →
    2 * (writeTo j rest).length ≤ fuel + 2 * rest.length →
    readValue fuel (writeTo j rest) = some (j, rest)

theorem skipSpace_cons {c : Char} {rest : List Char} (h : isSpace c = false) :
    skipSpace (c :: rest) = c :: rest := by
  simp [skipSpace, h]

theorem skipSpace_quote (name : String) (rest : List Char) :
    skipSpace (quote name ++ rest) = quote name ++ rest := by
  rw [quote_append]
  exact skipSpace_cons rfl

theorem readName_quote (name : String) (rest : List Char) :
    readName (quote name ++ ':' :: rest) = some (some name, rest) := by
  rw [quote_append]
  simp [readName, readString_flatMap, skipSpace_cons (c := ':') rfl]

theorem endsNumber_writeItems (items : List Json) (rest : List Char) :
    EndsNumber (writeItems items rest) := by
  cases items <;> exact .of_cons _ (by decide)

theorem endsNumber_writeMembers (members : List (String × Json)) (rest : List Char) :
    EndsNumber (writeMembers members rest) := by
  cases members <;> exact .of_cons _ (by decide)

theorem readItems_last {fuel : Nat} {cs rest : List Char} {item : Json}
    (h : readValue fuel cs = some (item, ']' :: rest)) :
    readItems (fuel + 1) cs = some ([item], rest) := by
  simp [readItems, h, skipSpace_cons (c := ']') rfl]

theorem readItems_more {fuel : Nat} {cs more rest : List Char} {item : Json} {items : List Json}
    (h : readValue fuel cs = some (item, ',' :: more))
    (hmore : readItems fuel more = some (items, rest)) :
    readItems (fuel + 1) cs = some (item :: items, rest) := by
  simp [readItems, h, skipSpace_cons (c := ',') rfl, hmore]

theorem readItems_write {rest : List Char} {items : List Json} :
    ∀ {item : Json} {fuel : Nat}, (∀ j ∈ item :: items, Legible j ∧ ReadBack j) →
      2 * (writeTo item (writeItems items rest)).length < fuel + 2 * rest.length →
      readItems fuel (writeTo item (writeItems items rest)) = some (item :: items, rest) := by
  induction items with
  | nil =>
    intro item fuel h hfuel
    obtain ⟨hlegible, hread⟩ := h item List.mem_cons_self
    have hlonger := hlegible.longer (']' :: rest)
    simp only [writeItems, List.length_cons] at hlonger hfuel
    cases fuel with
    | zero => omega
    | succ fuel =>
      refine readItems_last (hread (']' :: rest) fuel (.of_cons _ (by decide)) ?_)
      simp only [List.length_cons]
      omega
  | cons next items ih =>
    intro item fuel h hfuel
    obtain ⟨hlegible, hread⟩ := h item List.mem_cons_self
    have hlater : ∀ j ∈ next :: items, Legible j ∧ ReadBack j := fun j hj =>
      h j (List.mem_cons_of_mem item hj)
    have hlonger := hlegible.longer (writeItems (next :: items) rest)
    have htail := length_writeItems (fun j hj => (hlater j hj).1.longer) rest
    cases fuel with
    | zero => omega
    | succ fuel =>
      have hitem := hread _ fuel (endsNumber_writeItems (next :: items) rest) (by omega)
      simp only [writeItems, List.length_cons] at hlonger hfuel htail
      exact readItems_more hitem (ih hlater (by omega))

theorem readMembers_last {fuel : Nat} {name : String} {cs rest : List Char} {value : Json}
    (h : readValue fuel cs = some (value, '\x7d' :: rest)) :
    readMembers (fuel + 1) (quote name ++ ':' :: cs) = some ([(some name, value)], rest) := by
  simp [readMembers, skipSpace_quote, readName_quote, h, skipSpace_cons (c := '\x7d') rfl]

theorem readMembers_more {fuel : Nat} {name : String} {cs more rest : List Char} {value : Json}
    {members : List (Option String × Json)} (h : readValue fuel cs = some (value, ',' :: more))
    (hmore : readMembers fuel more = some (members, rest)) :
    readMembers (fuel + 1) (quote name ++ ':' :: cs) =
      some ((some name, value) :: members, rest) := by
  simp [readMembers, skipSpace_quote, readName_quote, h, skipSpace_cons (c := ',') rfl, hmore]

theorem readMembers_write {rest : List Char} {members : List (String × Json)} :
    ∀ {name : String} {value : Json} {fuel : Nat},
      (∀ m ∈ (name, value) :: members, Legible m.2 ∧ ReadBack m.2) →
      2 * (quote name ++ ':' :: writeTo value (writeMembers members rest)).length <
        fuel + 2 * rest.length →
      readMembers fuel (quote name ++ ':' :: writeTo value (writeMembers members rest)) =
        some (((name, value) :: members).map fun m => (some m.1, m.2), rest) := by
  induction members with
  | nil =>
    intro name value fuel h hfuel
    obtain ⟨hlegible, hread⟩ := h (name, value) List.mem_cons_self
    have hlonger := hlegible.longer ('\x7d' :: rest)
    simp only [writeMembers, List.length_cons, List.length_append] at hlonger hfuel
    cases fuel with
    | zero => omega
    | succ fuel =>
      refine readMembers_last (hread ('\x7d' :: rest) fuel (.of_cons _ (by decide)) ?_)
      simp only [List.length_cons]
      omega
  | cons next members ih =>
    intro name value fuel h hfuel
    obtain ⟨hlegible, hread⟩ := h (name, value) List.mem_cons_self
    have hlater : ∀ m ∈ next :: members, Legible m.2 ∧ ReadBack m.2 := fun m hm =>
      h m (List.mem_cons_of_mem _ hm)
    have hlonger : (writeMembers (next :: members) rest).length <
      (writeTo value (writeMembers (next :: members) rest)).length := hlegible.longer _
    have htail := length_writeMembers (fun m hm => (hlater m hm).1.longer) rest
    simp only [List.length_cons, List.length_append] at hfuel
    cases fuel with
    | zero => omega
    | succ fuel =>
      have hvalue := hread _ fuel (endsNumber_writeMembers (next :: members) rest)
        (by change 2 * (writeTo value _).length ≤ _; omega)
      refine readMembers_more hvalue (ih hlater ?_)
      simp only [writeMembers, List.length_cons] at hlonger hfuel htail
      omega

/-- `readValue` reads what begins with a digit as a number. -/
theorem readValue_toDigits (n fuel : Nat) (rest : List Char) (h : EndsNumber rest) :
    readValue (fuel + 1) (Nat.toDigits 10 n ++ rest) = some (.ofNat n, rest) := by
  have hnumber := readNumber_toDigits n h
  obtain ⟨c, more, hn, hc⟩ := Numeral.exists_cons n
  rw [hn, List.cons_append] at hnumber ⊢
  rw [readValue, skipSpace_cons (isSpace_of_isDigit hc)]
  split
  iterate 6
    · next heq =>
        rw [(List.cons.inj heq).1] at hc
        cases hc
  · rw [hnumber]
    rfl

theorem readValue_array {fuel : Nat} {cs rest : List Char} {items : List Json}
    (hopen : ∃ c more, cs = c :: more ∧ isSpace c = false ∧ c ≠ ']')
    (h : readItems fuel cs = some (items, rest)) :
    readValue (fuel + 1) ('[' :: cs) = some (.array items, rest) := by
  obtain ⟨c, more, rfl, hspace, hend⟩ := hopen
  simp [readValue, skipSpace_cons (c := '[') rfl, skipSpace_cons hspace, hend, h]

theorem readValue_object {fuel : Nat} {name : String} {cs rest : List Char}
    {members : List (String × Json)}
    (h : readMembers fuel (quote name ++ cs) =
      some (members.map fun m => (some m.1, m.2), rest)) :
    readValue (fuel + 1) ('\x7b' :: (quote name ++ cs)) = some (.object members, rest) := by
  rw [quote_append] at h ⊢
  simp [readValue, skipSpace_cons (c := '\x7b') rfl, skipSpace_cons (c := '"') rfl, h,
    ofMembers_some]

/-- Some fuel there always is, as a value has a first character. -/
theorem ReadBack.of_succ {j : Json} (hlegible : Legible j)
    (h : ∀ (rest : List Char) (fuel : Nat), EndsNumber rest →
      2 * (writeTo j rest).length ≤ fuel + 1 + 2 * rest.length →
      readValue (fuel + 1) (writeTo j rest) = some (j, rest)) : ReadBack j := by
  intro rest fuel hrest hfuel
  have hlonger := hlegible.longer rest
  cases fuel with
  | zero => omega
  | succ fuel => exact h rest fuel hrest hfuel

/-- What is `Legible` is read back. -/
theorem Legible.readBack {j : Json} (h : Legible j) : ReadBack j := by
  induction h with
  | null => exact .of_succ .null fun _ _ _ _ => rfl
  | bool b =>
    refine .of_succ (.bool b) fun rest fuel _ _ => ?_
    cases b with
    | true => rfl
    | false => rfl
  | count n =>
    refine .of_succ (.count n) fun rest fuel hrest _ => ?_
    rw [writeTo_ofNat]
    exact readValue_toDigits n fuel rest hrest
  | string s =>
    refine .of_succ (.string s) fun rest fuel _ _ => ?_
    rw [writeTo, quote_append]
    simp [readValue, skipSpace_cons (c := '"') rfl, readString_flatMap, ofSpelling]
  | @array items hitems ih =>
    refine .of_succ (.array hitems) fun rest fuel _ hfuel => ?_
    cases items with
    | nil => rfl
    | cons item items =>
      simp only [writeTo, List.length_cons] at hfuel ⊢
      have hread := readItems_write (fun j hj => ⟨hitems j hj, ih j hj⟩)
        (show _ < fuel + 2 * rest.length by omega)
      exact readValue_array ((hitems item List.mem_cons_self).opens _) hread
  | @object members hmembers ih =>
    refine .of_succ (.object hmembers) fun rest fuel _ hfuel => ?_
    cases members with
    | nil => rfl
    | cons m members =>
      obtain ⟨name, value⟩ := m
      simp only [writeTo, List.length_cons] at hfuel ⊢
      have hread := readMembers_write (fun m hm => ⟨hmembers m hm, ih m hm⟩)
        (show _ < fuel + 2 * rest.length by omega)
      exact readValue_object hread

/-- `parse?` makes of the text of a `Legible` value that value. -/
theorem parse?_text {j : Json} (h : Legible j) : parse? j.text = some j := by
  have hread := h.readBack [] (2 * (writeTo j []).length + 2) .nil (by simp)
  simp [parse?, text, ofChars?, hread, skipSpace]

end Bourse.Json
