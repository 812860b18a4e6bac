import Bourse.Power
import Bourse.Timestamp
import Bourse.Proofs.Numerals

/-!
# Written times are read back

Each part of a time is written with a width of its own and read back off the front of the
text. The last mark says that the clock shows universal time, so that `ofLocal?` shifts
nothing.

What is written are the parts that a clock shows, `clockSecond` and `clockNanosecond`.
They tell a leap second only where it ends a minute, as the second 60; `shown` is the
time that any other one is read back as, and `shown_eq_self_iff` says that nothing else
is lost. The main statement is `ofText?_text`.
-/

namespace Bourse.Timestamp

/-! ## Digits of a fixed width -/

@[simp] theorem length_fixedDigits (width n : Nat) : (fixedDigits width n).length = width := by
  induction width generalizing n with
  | zero => rfl
  | succ width ih => simp [fixedDigits, ih]

theorem isDigit_of_mem_fixedDigits {width : Nat} :
    ∀ {n : Nat}, ∀ c ∈ fixedDigits width n, c.isDigit = true := by
  induction width with
  | zero =>
    intro n c hc
    cases hc
  | succ width ih =>
    intro n c hc
    rcases List.mem_append.mp hc with hfront | hlast
    · exact ih c hfront
    · rw [List.mem_singleton.mp hlast, Nat.isDigit_digitChar]
      exact decide_eq_true (Nat.mod_lt n (by decide))

theorem ofDigitChars_fixedDigits {width n : Nat} (h : n < tenTo width) :
    Nat.ofDigitChars 10 (fixedDigits width n) 0 = n := by
  induction width generalizing n with
  | zero =>
    rw [tenTo_zero, Nat.lt_one_iff] at h
    rw [h]
    rfl
  | succ width ih =>
    have hfront : n / 10 < tenTo width := by
      rw [tenTo_succ] at h
      omega
    rw [fixedDigits, Nat.ofDigitChars_append, ih hfront,
      Nat.ofDigitChars_cons_digitChar_of_lt_ten (Nat.mod_lt n (by decide)), Nat.ofDigitChars_nil,
      Nat.div_add_mod]

/-! ## Reading numbers -/

theorem isBlankChar_of_isDigit {c : Char} (h : c.isDigit = true) :
    Text.isBlankChar c = false := by
  have hrange : 48 ≤ c.toNat ∧ c.toNat ≤ 57 := by
    simpa [Char.isDigit, UInt32.le_iff_toNat_le] using h
  simp [Text.isBlankChar]
  omega

theorem skipBlank_cons {c : Char} (h : Text.isBlankChar c = false) (rest : List Char) :
    skipBlank (c :: rest) = c :: rest := by
  simp [skipBlank, h]

theorem skipBlank_digits {ds : List Char} (hds : ∀ c ∈ ds, c.isDigit = true) (hne : ds ≠ [])
    (rest : List Char) : skipBlank (ds ++ rest) = ds ++ rest := by
  cases ds with
  | nil => exact absurd rfl hne
  | cons c ds => exact skipBlank_cons (isBlankChar_of_isDigit (hds c List.mem_cons_self)) _

/-- `readNumber` reads no more digits than it may. -/
theorem readNumber_width {ds : List Char} (hds : ∀ c ∈ ds, c.isDigit = true) (hne : ds ≠ [])
    (rest : List Char) :
    readNumber ds.length (ds ++ rest) = some (Nat.ofDigitChars 10 ds 0, rest) := by
  have htake : ((ds ++ rest).take ds.length).takeWhile Char.isDigit = ds := by
    rw [List.take_left' rfl]
    have hnothing : ∀ c ∈ ([] : List Char).head?, c.isDigit = false := by simp
    simpa using Numeral.takeWhile_append hds hnothing
  simp only [readNumber, htake, List.isEmpty_eq_false_iff.mpr hne, Bool.false_eq_true, if_false,
    List.drop_left]

/-- `readNumber` reads digits up to a character that is none. -/
theorem readNumber_all {ds : List Char} (hds : ∀ c ∈ ds, c.isDigit = true) (hne : ds ≠ [])
    {rest : List Char} (hrest : ∀ c ∈ rest.head?, c.isDigit = false) :
    readNumber (ds ++ rest).length (ds ++ rest) = some (Nat.ofDigitChars 10 ds 0, rest) := by
  simp only [readNumber, List.take_length, Numeral.takeWhile_append hds hrest,
    List.isEmpty_eq_false_iff.mpr hne, Bool.false_eq_true, if_false, List.drop_left]

theorem fixedDigits_ne_nil (width n : Nat) : fixedDigits (width + 1) n ≠ [] := by
  rw [← List.length_pos_iff, length_fixedDigits]
  omega

theorem readTwo_fixedDigits {n : Nat} (h : n < 100) (rest : List Char) :
    readTwo (fixedDigits 2 n ++ rest) = some (n, rest) := by
  have hread := readNumber_width isDigit_of_mem_fixedDigits (fixedDigits_ne_nil 1 n) rest
  rw [length_fixedDigits, ofDigitChars_fixedDigits h] at hread
  rw [readTwo, skipBlank_digits isDigit_of_mem_fixedDigits (fixedDigits_ne_nil 1 n), hread]

/-! ## Leap seconds -/

/-- The point in time lies in a leap second that does not end its minute. -/
def LeapsWithin (t : Timestamp) : Prop := t.second < 59 ∧ 1000000000 ≤ t.nanosecond

instance (t : Timestamp) : Decidable t.LeapsWithin := by
  unfold LeapsWithin
  infer_instance

theorem clockNanosecond_lt (t : Timestamp) : t.clockNanosecond < 1000000000 :=
  Nat.mod_lt _ (by decide)

/-- A clock shows one second more than has passed, and only in a leap second. -/
theorem clockSecond_cases (t : Timestamp) :
    (t.nanosecond < 1000000000 ∧ t.clockSecond = t.second ∧
        t.clockNanosecond = t.nanosecond) ∨
      (1000000000 ≤ t.nanosecond ∧ t.clockSecond = t.second + 1 ∧
        t.clockNanosecond + 1000000000 = t.nanosecond) := by
  have hlt : t.nanosecond < 2000000000 := t.isTime.2.2.2
  unfold clockSecond clockNanosecond
  by_cases hleap : 1000000000 ≤ t.nanosecond
  · exact Or.inr ⟨hleap, by omega, by omega⟩
  · exact Or.inl ⟨Nat.not_le.mp hleap, by omega, by omega⟩

theorem clockSecond_le (t : Timestamp) : t.clockSecond ≤ 60 := by
  have hlt : t.second < 60 := t.isTime.2.2.1
  rcases t.clockSecond_cases with ⟨-, hsecond, -⟩ | ⟨-, hsecond, -⟩ <;> omega

theorem shown_of_lt {t : Timestamp} (h : t.clockSecond < 60) :
    t.shown.second = t.clockSecond ∧ t.shown.nanosecond = t.clockNanosecond := by
  unfold shown
  rw [dif_pos h]
  exact ⟨rfl, rfl⟩

theorem shown_of_not_lt {t : Timestamp} (h : ¬ t.clockSecond < 60) : t.shown = t := dif_neg h

/-- A clock does not tell `shown` from the time itself. -/
theorem clock_shown (t : Timestamp) :
    t.shown.clockSecond = t.clockSecond ∧ t.shown.clockNanosecond = t.clockNanosecond := by
  by_cases h : t.clockSecond < 60
  · obtain ⟨hsecond, hnano⟩ := shown_of_lt h
    have hlt := t.clockNanosecond_lt
    rcases t.shown.clockSecond_cases with ⟨-, hs, hn⟩ | ⟨hleap, -, -⟩
    · exact ⟨hs.trans hsecond, hn.trans hnano⟩
    · omega
  · rw [shown_of_not_lt h]
    exact ⟨rfl, rfl⟩

theorem shown_day (t : Timestamp) :
    t.shown.year = t.year ∧ t.shown.month = t.month ∧ t.shown.day = t.day ∧
      t.shown.hour = t.hour ∧ t.shown.minute = t.minute := by
  unfold shown
  split <;> exact ⟨rfl, rfl, rfl, rfl, rfl⟩

/-- Only the leap seconds within a minute are lost. -/
theorem shown_eq_self_iff {t : Timestamp} : t.shown = t ↔ ¬ t.LeapsWithin := by
  have hlt : t.second < 60 := t.isTime.2.2.1
  unfold LeapsWithin
  by_cases h : t.clockSecond < 60
  · obtain ⟨hsecond, hnano⟩ := shown_of_lt h
    rcases t.clockSecond_cases with ⟨hlow, hs, hn⟩ | ⟨hleap, hs, -⟩
    · refine iff_of_true ?_ (by omega)
      unfold shown
      simp only [hs, hn]
      exact dif_pos hlt
    · refine iff_of_false (fun heq => ?_) (by omega)
      rw [heq] at hsecond
      omega
  · refine iff_of_true (shown_of_not_lt h) ?_
    rcases t.clockSecond_cases with ⟨-, hs, -⟩ | ⟨-, hs, -⟩ <;> omega

@[simp] theorem shown_shown (t : Timestamp) : t.shown.shown = t.shown := by
  rw [shown_eq_self_iff]
  by_cases h : t.clockSecond < 60
  · have hlt := t.clockNanosecond_lt
    rintro ⟨-, hleap⟩
    rw [(shown_of_lt h).2] at hleap
    omega
  · rw [shown_of_not_lt h, ← shown_eq_self_iff]
    exact shown_of_not_lt h

theorem text_shown (t : Timestamp) : t.shown.text = t.text := by
  obtain ⟨hyear, hmonth, hday, hhour, hminute⟩ := t.shown_day
  obtain ⟨hsecond, hnano⟩ := t.clock_shown
  simp only [text, toChars, hyear, hmonth, hday, hhour, hminute, hsecond, hnano]

theorem ofParts?_self (t : Timestamp) :
    ofParts? t.year t.month t.day t.hour t.minute t.second t.nanosecond = some t :=
  dif_pos ⟨t.isDay, t.isTime⟩

/-- `ofClock?` undoes `clockSecond` and `clockNanosecond`, as far as `shown` goes. -/
theorem ofClock?_clock (t : Timestamp) :
    ofClock? t.year t.month t.day t.hour t.minute t.clockSecond t.clockNanosecond =
      some t.shown := by
  have hlt : t.second < 60 := t.isTime.2.2.1
  unfold ofClock?
  by_cases h : t.clockSecond < 60
  · obtain ⟨hyear, hmonth, hday, hhour, hminute⟩ := t.shown_day
    obtain ⟨hsecond, hnano⟩ := shown_of_lt h
    have hparts := t.shown.ofParts?_self
    rw [hyear, hmonth, hday, hhour, hminute, hsecond, hnano] at hparts
    rw [if_neg (Nat.ne_of_lt h), hparts]
  · rcases t.clockSecond_cases with ⟨-, hs, -⟩ | ⟨-, hs, hn⟩
    · omega
    · -- The second 60 is shown of the second 59 only.
      have hlast : t.second = 59 := by omega
      rw [if_pos (by omega), shown_of_not_lt h, hn, ← hlast]
      exact t.ofParts?_self

/-! ## The parts of a time -/

/-- `readYear` finds no sign where a year begins with a digit. -/
theorem readYear_digits {ds : List Char} (hds : ∀ c ∈ ds, c.isDigit = true)
    (hlength : ds.length = 4) (rest : List Char) :
    readYear (ds ++ rest) = some ((Nat.ofDigitChars 10 ds 0 : Int), rest) := by
  have hne : ds ≠ [] := by
    rintro rfl
    cases hlength
  have hread := readNumber_width hds hne rest
  rw [hlength] at hread
  obtain ⟨c, more, rfl⟩ := List.exists_cons_of_ne_nil hne
  have hc := hds c List.mem_cons_self
  rw [List.cons_append] at hread ⊢
  rw [readYear, skipBlank_cons (isBlankChar_of_isDigit hc)]
  split
  · next heq =>
    rw [(List.cons.inj heq).1] at hc
    cases hc
  · next heq =>
    rw [(List.cons.inj heq).1] at hc
    cases hc
  · rw [hread]
    rfl

theorem readYear_yearChars (year : Int) (rest : List Char) :
    readYear (yearChars year ++ '-' :: rest) = some (year, '-' :: rest) := by
  unfold yearChars
  split
  · next hfour =>
    rw [readYear_digits isDigit_of_mem_fixedDigits (length_fixedDigits 4 _),
      ofDigitChars_fixedDigits (show year.toNat < 10000 by omega), Int.toNat_of_nonneg hfour.1]
  · have hhead : ∀ c ∈ ('-' :: rest).head?, c.isDigit = false := by
      intro c hc
      cases hc
      rfl
    have hread := readNumber_all (Numeral.isDigit_of_mem_padded
      (k := 4 - (Nat.toDigits 10 year.natAbs).length) (n := year.natAbs))
      (List.append_ne_nil_of_right_ne_nil _ Nat.toDigits_ne_nil) hhead
    rw [Numeral.ofDigitChars_padded] at hread
    by_cases hminus : year < 0
    · have hyear : -(year.natAbs : Int) = year := by omega
      simp only [hminus, if_true, List.cons_append, readYear, skipBlank_cons (c := '-') rfl,
        hread, Option.map_some, hyear]
    · have hyear : (year.natAbs : Int) = year := by omega
      simp only [hminus, if_false, List.cons_append, readYear, skipBlank_cons (c := '+') rfl,
        hread, Option.map_some, hyear]

theorem readMark_cons (mark : Char) (h : Text.isBlankChar mark = false) (rest : List Char) :
    readMark mark (mark :: rest) = some rest := by
  simp [readMark, skipBlank_cons h]

theorem readSeparator_cons (rest : List Char) : readSeparator ('T' :: rest) = some rest := by
  simp [readSeparator]

/-- `readPart` fills up a part of a second of fewer than nine digits with zeros. -/
theorem readPart_fixedDigits {width n : Nat} (h : n < tenTo (width + 1)) (hwidth : width < 9)
    (rest : List Char) :
    readPart ('.' :: fixedDigits (width + 1) n ++ 'Z' :: rest) =
      some (tenTo (8 - width) * n, 'Z' :: rest) := by
  have hhead : ∀ c ∈ ('Z' :: rest).head?, c.isDigit = false := by
    intro c hc
    cases hc
    rfl
  have hnine : (fixedDigits (width + 1) n).take 9 = fixedDigits (width + 1) n :=
    List.take_of_length_le (by rw [length_fixedDigits]; omega)
  have hvalue : Nat.ofDigitChars 10
      (fixedDigits (width + 1) n ++ List.replicate (8 - width) '0') 0 =
        tenTo (8 - width) * n := by
    rw [Nat.ofDigitChars_append, Nat.ofDigitChars_replicate_zero, ofDigitChars_fixedDigits h]
    rfl
  simp [readPart, Numeral.takeWhile_append isDigit_of_mem_fixedDigits hhead,
    Numeral.dropWhile_append isDigit_of_mem_fixedDigits hhead, hnine, fixedDigits_ne_nil, hvalue]

/-- `partChars` writes the part of a second in the largest unit that tells it exactly. -/
theorem readPart_partChars {n : Nat} (h : n < 1000000000) (rest : List Char) :
    readPart (partChars n ++ 'Z' :: rest) = some (n, 'Z' :: rest) := by
  unfold partChars
  split
  · next hzero =>
    rw [hzero]
    rfl
  split
  · next hmilli =>
    have hvalue : 1000000 * (n / 1000000) = n := by omega
    rw [readPart_fixedDigits (show n / 1000000 < 1000 by omega) (by decide)]
    exact congrArg (fun m => some (m, 'Z' :: rest)) hvalue
  split
  · next hmicro =>
    have hvalue : 1000 * (n / 1000) = n := by omega
    rw [readPart_fixedDigits (show n / 1000 < 1000000 by omega) (by decide)]
    exact congrArg (fun m => some (m, 'Z' :: rest)) hvalue
  · rw [readPart_fixedDigits h (by decide)]
    exact congrArg (fun m => some (m, 'Z' :: rest)) (Nat.one_mul n)

theorem daysIn_le (year : Int) (month : Nat) : daysIn year month ≤ 31 := by
  unfold daysIn
  split
  · split <;> omega
  · split <;> omega

/-- A reader that begins with a part goes on with what follows it. -/
theorem bind_of_eq {α β : Type} {x : Option α} {f : α → Option β} {a : α} {b : β}
    (hx : x = some a) (hf : f a = some b) : x >>= f = some b := by
  rw [hx]
  exact hf

/-- A time is read back from its text as it is `shown`. -/
theorem ofText?_text (t : Timestamp) : ofText? t.text = some t.shown := by
  obtain ⟨_, _, _, hmonth, _, hday⟩ := t.isDay
  obtain ⟨hhour, hminute, -, -⟩ := t.isTime
  have hsecond := t.clockSecond_le
  have hdays := daysIn_le t.year t.month
  simp only [ofText?, text, String.toList_ofList, toChars, List.append_assoc, List.cons_append]
  refine bind_of_eq (readYear_yearChars t.year _) (bind_of_eq (readMark_cons '-' rfl _) ?_)
  refine bind_of_eq (readTwo_fixedDigits (by omega) _) (bind_of_eq (readMark_cons '-' rfl _) ?_)
  refine bind_of_eq (readTwo_fixedDigits (by omega) _) (bind_of_eq (readSeparator_cons _) ?_)
  refine bind_of_eq (readTwo_fixedDigits (by omega) _) (bind_of_eq (readMark_cons ':' rfl _) ?_)
  refine bind_of_eq (readTwo_fixedDigits (by omega) _) (bind_of_eq (readMark_cons ':' rfl _) ?_)
  refine bind_of_eq (readTwo_fixedDigits (by omega) _)
    (bind_of_eq (readPart_partChars t.clockNanosecond_lt _) ?_)
  -- The mark of universal time is all that is left.
  exact bind_of_eq rfl (bind_of_eq t.ofClock?_clock t.shown.ofLocal?_zero)

end Bourse.Timestamp
