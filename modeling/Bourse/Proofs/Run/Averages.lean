import Bourse.Proofs.Engine.Tallied
import Bourse.Proofs.Run.Release

/-!
# The average price of an answer

Whatever has happened before, the trades of an answer can be added up
(`Engine.perform_tallied`), and `averagePrice` is the rounded quotient of the cost and the
quantity as they were added up. It is an average where these have not been rounded, and
where rounding has left the cost between what the quantity would cost at the lowest and at
the highest price. Else it may not be one, and there are two ways to see that with one
trade: the cost of a part of a unit at a high price is rounded up and the quotient does
not fit (`dearDeal`), or at a low price it vanishes and so does the average (`cheapDeal`).
-/

namespace Bourse

/-- The result that a submission or a modification is answered with. -/
def Answer.result? : Answer → Option OrderResult
  | .submitted (.ok (.ok r)) | .modified (.ok (.modified r)) => some r
  | _ => none

theorem Answer.result?_eq_some {a : Answer} {r : OrderResult} :
    a.result? = some r ↔
      a = .submitted (.ok (.ok r)) ∨ a = .modified (.ok (.modified r)) := by
  constructor
  · intro h
    unfold result? at h
    split at h
    · cases h
      exact Or.inl rfl
    · cases h
      exact Or.inr rfl
    · cases h
  · rintro (rfl | rfl) <;> rfl

theorem Engine.perform_tallied {e : Engine} (hrule : e.rule = .priceTime) {call : Call}
    {r : OrderResult} (hr : (e.perform call).answer.result? = some r) :
    ∃ filled, r.Tallied filled := by
  rcases Answer.result?_eq_some.mp hr with hsubmitted | hmodified
  · cases call with
    | submit world intent =>
        exact submit_tallied hrule (Answer.submitted.inj hsubmitted)
    | addInstrument config => cases hsubmitted
    | cancel world id => cases hsubmitted
    | modify world id request => cases hsubmitted
  · cases call with
    | modify world id request =>
        exact modify_tallied hrule (Answer.modified.inj hmodified)
    | addInstrument config => cases hmodified
    | submit world intent => cases hmodified
    | cancel world id => cases hmodified

/-- What is known of `averagePrice` of a result. -/
structure OrderResult.Quoted (r : OrderResult) (filled : Quantity) : Prop
    extends r.Tallied filled, r.Quotes filled where
  answers : 1 ≤ filled → ∃ answer, r.averagePrice = .ok answer
  averaged_of_between : (r.trades ≠ [] → r.Between filled) → r.Averaged
  averaged_of_unrounded : Unrounded r.trades → r.Averaged
  averaged_of_few : ∀ j k, FewPlaces j k r.trades → r.Averaged

/-- In any run the trades of a result can be added up, and `averagePrice` is none without trades or
if their cost does not fit, and otherwise the rounded quotient of cost and quantity; asking for it
fails just where that does not fit. It is an average unless rounding has moved the cost. -/
theorem averaged_unless_rounded {past : List Turn} {e : Engine} (h : Run past e) {t : Turn}
    (ht : t ∈ past) {r : OrderResult} (hr : t.answer.result? = some r) :
    ∃ filled, r.Quoted filled := by
  obtain ⟨earlier, -, hsuffix⟩ := h.upTo ht
  obtain ⟨before, call, hbefore, rfl⟩ := h.of_suffix hsuffix
  obtain ⟨filled, htallied⟩ := Engine.perform_tallied hbefore.rule_eq hr
  exact ⟨filled, htallied, htallied.quotes, htallied.quotes.answers, htallied.averaged_of_between,
    htallied.averaged_of_unrounded, fun _ _ hfew => htallied.averaged_of_unrounded hfew.unrounded⟩

/-- The result that the latest turn has been answered with. -/
def lastResult? (past : List Turn) : Option OrderResult :=
  past.head?.bind fun t => t.answer.result?

theorem exists_of_lastResult? {past : List Turn} {r : OrderResult}
    (h : lastResult? past = some r) : ∃ t ∈ past, t.answer.result? = some r := by
  obtain ⟨t, ht, hr⟩ := Option.bind_eq_some_iff.mp h
  exact ⟨t, List.mem_of_mem_head? ht, hr⟩

/-- Two are bought at 1 and one at 2. -/
def dealings : List Call :=
  [.addInstrument (.plain "X"),
    .submit (.handing 1) (.limit "X" .sell 1 (.scaled 2 0)),
    .submit (.handing 2) (.limit "X" .sell (.scaled 2 0) 1),
    .submit (.handing 3) (.market "X" .buy (.scaled 3 0))]

/-- Some quantity is bought at one price. -/
def singleDeal (price : Price) (quantity : Quantity) : List Call :=
  [.addInstrument (.plain "X"),
    .submit (.handing 1) (.limit "X" .sell price quantity),
    .submit (.handing 2) (.market "X" .buy quantity)]

/-- Half of the greatest price is rounded up, and twice that does not fit. -/
def dearDeal : List Call := singleDeal .greatest (.scaled 5 1)

/-- A tenth of the lowest price is nothing. -/
def cheapDeal : List Call := singleDeal (.scaled 1 28) (.scaled 1 1)

/-- The quotients of sums that nothing has been rounded on the way to, and of two others. -/
theorem averaged_unless_rounded_deals :
    (∀ calls ∈ [dealings, dearDeal, cheapDeal], ∃ r filled,
      lastResult? ((Engine.empty .priceTime).follow [] calls).1 = some r ∧ r.Quoted filled) ∧
      [dealings, dearDeal, cheapDeal].map (fun calls =>
          (lastResult? ((Engine.empty .priceTime).follow [] calls).1).map fun r =>
            (r.trades.length, decide (FewPlaces 0 0 r.trades),
              r.averagePrice.toOption.map (Option.map Decimal.atoms))) =
        [some (2, true, some (some 13333333333333333333333333333)), some (1, false, none),
          some (1, false, some (some 0))] := by
  have hall : ∀ calls ∈ [dealings, dearDeal, cheapDeal],
      (lastResult? ((Engine.empty .priceTime).follow [] calls).1).isSome = true := by
    decide +kernel
  refine ⟨fun calls hcalls => ?_, by decide +kernel⟩
  obtain ⟨r, hlast⟩ := Option.isSome_iff_exists.mp (hall calls hcalls)
  obtain ⟨t, ht, hr⟩ := exists_of_lastResult? hlast
  obtain ⟨filled, hquoted⟩ := averaged_unless_rounded (History.start.follow calls) ht hr
  exact ⟨r, filled, hlast, hquoted⟩

/-- Not every average price can be asked for: the cost of half a unit at the greatest price fits,
and its quotient does not. -/
theorem not_averaged_dearDeal :
    ¬ ∀ past e, Run past e → ∀ t ∈ past, ∀ r, t.answer.result? = some r → r.Averaged := by
  intro h
  have hfault : (lastResult? ((Engine.empty .priceTime).follow [] dearDeal).1).any
      (fun r => !r.averagePrice.isOk) = true := by decide +kernel
  obtain ⟨r, hlast, hfails⟩ := (Option.any_eq_true _ _).mp hfault
  obtain ⟨t, ht, hr⟩ := exists_of_lastResult? hlast
  obtain ⟨answer, hanswer, -⟩ := h _ _ (History.start.follow dearDeal) t ht r hr
  rw [hanswer] at hfails
  cases hfails

end Bourse
