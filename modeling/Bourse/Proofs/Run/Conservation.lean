import Bourse.Proofs.Ledger.Exact

/-!
# Quantities are conserved

As long as all quantities that are accepted are multiples of one power of ten, and all of
them together have few enough digits (`ExactRange`), no sum is ever rounded. Then the
accounts of a run balance after every call (`Account.Balances`): what an order asks for is
what is filled and what is left of it, what is filled is the sum of its trades, and all
accounts together have filled twice what has been traded. Calls that are not accepted may
bring any quantities; they leave the accounts alone.
-/

namespace Bourse

open Decimal

/-- The quantity that a call brings. -/
def Call.quantity? : Call → Option Quantity
  | .submit _ intent => some intent.quantity
  | .modify _ _ request => some request.quantity
  | .addInstrument _ | .cancel _ _ => none

/-- The answer to a submission or a modification that has been accepted. -/
def Answer.accepts : Answer → Bool
  | .submitted (.ok (.ok _)) | .modified (.ok (.modified _)) => true
  | _ => false

/-- The quantity that a `Turn` has accepted. -/
def Turn.accepted? (t : Turn) : Option Quantity :=
  if t.answer.accepts then t.call.quantity? else none

/-- All accepted quantities of a run are multiples of `10 ^ -k`, and their sum times `10 ^ k` is
below `2 ^ 96`. One is `10 ^ 28` atoms. -/
structure ExactRange (k : Nat) (past : List Turn) : Prop where
  le : k ≤ 28
  multiple : ∀ q ∈ past.filterMap Turn.accepted?, (tenTo (28 - k) : Int) ∣ q.atoms
  sum_lt : exactSum (past.filterMap Turn.accepted?) * tenTo k < coeffBound * tenTo 28

namespace Engine

variable {e : Engine} {world : Surroundings}

theorem pos_of_submit {intent : OrderIntent} {r : OrderResult}
    (ha : (e.submit world intent).answer = .ok (.ok r)) : 0 < intent.quantity := by
  obtain ⟨i, slot, hadm⟩ := admits_of_accepted ha
  exact (passed_of_checkIntent hadm.checked).pos

theorem pos_of_modify {id : OrderId} {request : ModifyRequest} {r : OrderResult}
    (ha : (e.modify world id request).answer = .ok (.modified r)) : 0 < request.quantity := by
  obtain ⟨i, slot, hrevises⟩ := revises_of_modified ha
  exact (passed_of_checkRequest hrevises.checked).1

end Engine

section Perform

variable {e : Engine} {world : Surroundings} {id : OrderId}

theorem accepted?_submit {intent : OrderIntent} {a : Except Fault (Except Rejection OrderResult)}
    (ha : (e.submit world intent).answer = a) :
    (e.perform (.submit world intent)).accepted? =
      if (Answer.submitted a).accepts then some intent.quantity else none := by
  subst ha
  rfl

theorem accepted?_modify {request : ModifyRequest} {a : Except Fault ModifyResult}
    (ha : (e.modify world id request).answer = a) :
    (e.perform (.modify world id request)).accepted? =
      if (Answer.modified a).accepts then some request.quantity else none := by
  subst ha
  rfl

theorem Engine.accepted_pos {call : Call} {q : Quantity}
    (h : (e.perform call).accepted? = some q) : 0 < q.atoms := by
  cases call with
  | addInstrument config => cases h
  | submit world intent =>
      cases ha : (e.submit world intent).answer with
      | error f => rw [accepted?_submit ha] at h; cases h
      | ok r =>
          cases r with
          | error why => rw [accepted?_submit ha] at h; cases h
          | ok r =>
              rw [accepted?_submit ha] at h
              cases h
              exact pos_of_submit ha
  | cancel world id =>
      cases hc : (e.perform (.cancel world id)).answer.accepts <;>
        rw [Turn.accepted?, hc] at h <;> cases h
  | modify world id request =>
      cases ha : (e.modify world id request).answer with
      | error f => rw [accepted?_modify ha] at h; cases h
      | ok r =>
          cases r with
          | modified res =>
              rw [accepted?_modify ha] at h
              cases h
              exact pos_of_modify ha
          | notFound => rw [accepted?_modify ha] at h; cases h
          | rejected reason => rw [accepted?_modify ha] at h; cases h

/-- A call that keeps to the grid and the range with what it accepts, if it accepts anything, keeps
the books `Steady` and the accounts exact. -/
theorem Engine.perform_exact {p : Precision} {hp : p.slack = 0} {bound : Int} {count : Nat}
    {L : Ledger} (h : e.Steady p bound 0 count) (hL : (Keeping.exact p hp).Agrees L e.Resting)
    (hnonneg : 0 ≤ bound) (hcap : bound ≤ p.cap) (call : Call)
    (hgrid : ∀ q, (e.perform call).accepted? = some q →
      p.grid ∣ q.atoms ∧ bound + q.atoms ≤ p.cap) :
    (e.perform call).after.Steady p (bound + exactSum (e.perform call).accepted?.toList) 0
        (count + 1) ∧
      (Keeping.exact p hp).Entered L (e.perform call) := by
  have hidle {e' : Engine} (hsteady : e'.Steady p bound 0 count) :
      e'.Steady p (bound + exactSum (none : Option Quantity).toList) 0 (count + 1) :=
    hsteady.mono (Int.le_of_eq (Int.add_zero _).symm) (Int.le_refl _) (Nat.le_succ _)
  have htaken {e' : Engine} {q : Quantity} (hsteady : e'.Steady p (bound + q.atoms) 0 (count + 1)) :
      e'.Steady p (bound + exactSum (some q).toList) 0 (count + 1) :=
    hsteady.mono (Int.le_of_eq (congrArg _ (Int.add_zero _).symm)) (Int.le_refl _) (Nat.le_refl _)
  cases call with
  | addInstrument config =>
      exact ⟨hidle (addInstrument_steady h config ⟨hnonneg, Int.le_refl _⟩),
        Keeping.entered_addInstrument hL config⟩
  | cancel world id =>
      obtain ⟨hsteady, hentered⟩ := Keeping.exact_cancel h hL hcap world id
      exact ⟨hidle hsteady, hentered⟩
  | submit world intent =>
      cases ha : (e.submit world intent).answer with
      | error f =>
          rw [accepted?_submit ha]
          obtain ⟨hsteady, hentered⟩ := Keeping.exact_aborted h hL ha hcap
          exact ⟨hidle hsteady, hentered⟩
      | ok r =>
          cases r with
          | error why =>
              rw [accepted?_submit ha]
              obtain ⟨hsteady, hentered⟩ := Keeping.exact_refused h hL ha
              exact ⟨hidle hsteady, hentered⟩
          | ok r =>
              rw [accepted?_submit ha] at hgrid ⊢
              obtain ⟨hsteady, hentered⟩ :=
                Keeping.exact_submit h hL ha (hgrid _ rfl).1 hnonneg (hgrid _ rfl).2
              exact ⟨htaken hsteady, hentered⟩
  | modify world id request =>
      cases ha : (e.modify world id request).answer with
      | error f =>
          rw [accepted?_modify ha]
          obtain ⟨hsteady, hentered⟩ := Keeping.exact_modify_error h hL ha hcap
          exact ⟨hidle hsteady, hentered⟩
      | ok r =>
          cases r with
          | modified res =>
              rw [accepted?_modify ha] at hgrid ⊢
              obtain ⟨hsteady, hentered⟩ :=
                Keeping.exact_modify h hL ha (hgrid _ rfl).1 (hgrid _ rfl).2
              exact ⟨htaken hsteady, hentered⟩
          | notFound =>
              rw [accepted?_modify ha]
              obtain ⟨hsteady, hentered⟩ := Keeping.exact_unmodified h hL ha fun _ hr => by cases hr
              exact ⟨hidle hsteady, hentered⟩
          | rejected reason =>
              rw [accepted?_modify ha]
              obtain ⟨hsteady, hentered⟩ := Keeping.exact_unmodified h hL ha fun _ hr => by cases hr
              exact ⟨hidle hsteady, hentered⟩

end Perform

/-- What has been accepted is positive, for it has passed `checkQuantity`. -/
theorem History.accepted_pos {past : List Turn} {e : Engine} (h : Run past e) :
    ∀ q ∈ past.filterMap Turn.accepted?, 0 < q.atoms := by
  intro q hq
  obtain ⟨t, ht, hacc⟩ := List.mem_filterMap.mp hq
  obtain ⟨earlier, -, hsuffix⟩ := h.upTo ht
  obtain ⟨before, call, -, rfl⟩ := h.of_suffix hsuffix
  exact Engine.accepted_pos hacc

theorem ExactRange.suffix {k : Nat} {past earlier : List Turn} {e : Engine}
    (hr : ExactRange k past) (h : Run past e) (ht : earlier <:+ past) : ExactRange k earlier := by
  obtain ⟨later, rfl⟩ := ht
  have hsum := hr.sum_lt
  rw [List.filterMap_append, exactSum_append] at hsum
  refine ⟨hr.le, fun q hq => hr.multiple q ?_, Int.lt_of_le_of_lt ?_ hsum⟩
  · rw [List.filterMap_append]
    exact List.mem_append_right _ hq
  · refine Int.mul_le_mul_of_nonneg_right ?_ (Int.natCast_nonneg _)
    have hlater : 0 ≤ exactSum (later.filterMap Turn.accepted?) :=
      exactSum_nonneg fun q hq => Int.le_of_lt (h.accepted_pos q (by
        rw [List.filterMap_append]
        exact List.mem_append_left _ hq))
    omega

theorem exactSum_dvd {g : Int} {qs : List Quantity} (h : ∀ q ∈ qs, g ∣ q.atoms) :
    g ∣ exactSum qs := by
  induction qs with
  | nil => exact Int.dvd_zero g
  | cons q qs ih =>
      obtain ⟨hq, hqs⟩ := List.forall_mem_cons.mp h
      rw [exactSum_cons]
      exact Int.dvd_add hq (ih hqs)

/-- What is accepted in `ExactRange` is within the range of an exact precision. -/
theorem ExactRange.le_cap {k : Nat} {past : List Turn} (h : ExactRange k past) :
    exactSum (past.filterMap Turn.accepted?) ≤ (Precision.exact k h.le).cap :=
  Precision.le_cap_exact h.le (exactSum_dvd h.multiple) h.sum_lt

/-- The trades of a run. -/
def trades (past : List Turn) : List Trade := past.flatMap Turn.trades

/-- The last turn of a run in `ExactRange` has been accounted for exactly, if those before it have.
-/
theorem History.exact_turn {past : List Turn} {e : Engine} {k : Nat} (h : Run past e) (call : Call)
    (hr : ExactRange k (e.perform call :: past))
    (hsteady : e.Steady (.exact k hr.le) (exactSum (past.filterMap Turn.accepted?)) 0 past.length)
    (hagrees : (Keeping.exact (.exact k hr.le) rfl).Agrees (accounts past) e.Resting) :
    (e.perform call).after.Steady (.exact k hr.le)
        (exactSum ((e.perform call :: past).filterMap Turn.accepted?)) 0 (past.length + 1) ∧
      (Keeping.exact (.exact k hr.le) rfl).Entered (accounts past) (e.perform call) := by
  have hnonneg : 0 ≤ exactSum (past.filterMap Turn.accepted?) :=
    exactSum_nonneg fun q hq => Int.le_of_lt (h.accepted_pos q hq)
  have hsum : exactSum ((e.perform call :: past).filterMap Turn.accepted?) =
      exactSum (past.filterMap Turn.accepted?) + exactSum (e.perform call).accepted?.toList := by
    rw [List.filterMap_cons]
    cases (e.perform call).accepted? with
    | none => exact (Int.add_zero _).symm
    | some q =>
        rw [exactSum_cons, Int.add_comm]
        exact congrArg _ (Int.add_zero _).symm
  have hcap := hr.le_cap
  rw [hsum]
  refine Engine.perform_exact hsteady hagrees hnonneg
    (hr.suffix (h.turn call) (List.suffix_cons _ _)).le_cap call fun q hq => ⟨?_, ?_⟩
  · exact hr.multiple q (List.mem_filterMap.mpr ⟨_, List.mem_cons_self, hq⟩)
  · rw [hsum, hq] at hcap
    exact Int.le_trans (Int.le_of_eq (congrArg _ (Int.add_zero _).symm)) hcap

theorem History.exact {past : List Turn} {e : Engine} {k : Nat} (h : Run past e)
    (hr : ExactRange k past) :
    e.Steady (.exact k hr.le) (exactSum (past.filterMap Turn.accepted?)) 0 past.length ∧
      (Keeping.exact (.exact k hr.le) rfl).Agrees (accounts past) e.Resting ∧
      (accounts past).traded = 2 * exactSum ((trades past).map Trade.quantity) := by
  induction h with
  | start =>
      refine ⟨Engine.steady_empty _, ⟨?_, fun a ha => by cases ha⟩, rfl⟩
      rintro o ⟨i, slot, hslot, -⟩
      cases hslot
  | @turn past e call h ih =>
      obtain ⟨hsteady, hagrees, htraded⟩ := ih (hr.suffix (h.turn call) (List.suffix_cons _ _))
      obtain ⟨hsteady', hentered⟩ := h.exact_turn call hr hsteady hagrees
      refine ⟨hsteady', hentered.agrees, ?_⟩
      show (Ledger.enter _ _).traded = 2 * exactSum (((e.perform call).trades ++ trades past).map _)
      rw [hentered.traded_eq, htraded, List.map_append, exactSum_append]
      omega

/-- The `accounts` after a turn balance, and agree with what rests and with what was answered. -/
structure Conserved (t : Turn) (earlier : List Turn) : Prop where
  balances : ∀ a ∈ accounts (t :: earlier),
    a.quantity.atoms = a.filled.atoms + a.remaining.atoms ∧ a.filled.atoms = exactSum a.trades
  resting : ∀ id o, t.after.order? id = some o →
    ∃ a, (accounts (t :: earlier)).newest? id = some a ∧ a.Shows o
  answered : ∀ o, t.answer.order? = some o →
    ∃ a, (accounts (t :: earlier)).newest? o.id = some a ∧ a.Shows o
  /-- What was filled before a modification stays filled; its own trades come on top. -/
  modified : ∀ world id request a, t.call = .modify world id request →
    (accounts earlier).newest? id = some a →
    ∃ a', (accounts (t :: earlier)).newest? id = some a' ∧
      a'.filled.atoms = a.filled.atoms + (t.trades.map (·.adds id)).sum
  filled_eq : (accounts (t :: earlier)).filled =
    2 * exactSum ((trades (t :: earlier)).map Trade.quantity)

theorem Ledger.filled_eq_traded {L : Ledger} (h : ∀ a ∈ L, a.Balances) : L.filled = L.traded := by
  induction L with
  | nil => rfl
  | cons a L ih =>
      obtain ⟨ha, hL⟩ := List.forall_mem_cons.mp h
      show a.filled.atoms + filled L = _
      rw [Ledger.traded_cons, ih hL, ha.filled_eq]

/-- Whatever a modification makes an order ask for, its trades stay. -/
theorem Ledger.newest?_prepare {L : Ledger} {t : Turn} {world : Surroundings} {id : OrderId}
    {request : ModifyRequest} {a : Account} (hcall : t.call = .modify world id request)
    (ha : L.newest? id = some a) :
    ∃ a', (L.prepare t).newest? id = some a' ∧ a'.traded = a.traded := by
  unfold Ledger.prepare
  rw [hcall]
  split
  · next heq =>
      cases heq
  · next r heq hanswer =>
      cases heq
      cases r with
      | modified res =>
          exact ⟨_, newest?_revise_self (Account.id_ask res.order.quantity) ha, rfl⟩
      | notFound => exact ⟨a, ha, rfl⟩
      | rejected reason => exact ⟨a, ha, rfl⟩
  · exact ⟨a, ha, rfl⟩

/-- In a run whose accepted quantities stay in `ExactRange`, quantities are `Conserved`. -/
theorem quantity_conserved {past : List Turn} {e : Engine} {k : Nat} (h : Run past e)
    (hr : ExactRange k past) :
    ∀ t earlier, t :: earlier <:+ past → Conserved t earlier := by
  intro t earlier ht
  obtain ⟨before, call, hrun, rfl⟩ := h.of_suffix ht
  have hr' := hr.suffix h ht
  obtain ⟨hsteady, hagrees, -⟩ := hrun.exact (hr'.suffix (hrun.turn call) (List.suffix_cons _ _))
  obtain ⟨hsteady', hentered⟩ := hrun.exact_turn call hr' hsteady hagrees
  obtain ⟨-, hagrees', htraded⟩ := (hrun.turn call).exact hr'
  have hshows {o : Order}
      (hkeeps : (Keeping.exact (.exact k hr'.le) rfl).Keeps
        (accounts (before.perform call :: earlier)) o) :
      ∃ a, (accounts (before.perform call :: earlier)).newest? o.id = some a ∧ a.Shows o := by
    obtain ⟨a, ha, hright⟩ := hkeeps
    exact ⟨a, ha, hright.shows rfl (hagrees'.lawful a (Ledger.mem_of_newest? ha))⟩
  refine ⟨fun a ha => ?_, fun id o ho => ?_, fun o ho => hshows (hentered.answered o ho), ?_, ?_⟩
  · have hbalances := hagrees'.lawful a ha
    exact ⟨hbalances.quantity_eq, hbalances.filled_eq⟩
  · obtain ⟨hrests, rfl⟩ := (Engine.order?_iff hsteady'.sound).mp ho
    exact hshows (hagrees'.keeps o hrests)
  · intro world id request a hcall ha
    obtain ⟨a₁, ha₁, hsum⟩ := Ledger.newest?_prepare hcall ha
    obtain ⟨a', ha', hposted⟩ := Ledger.newest?_posts ha₁ (before.perform call).events
    have hbalances := hagrees.lawful a (Ledger.mem_of_newest? ha)
    have hbalances' := hagrees'.lawful a' (Ledger.mem_of_newest? ha')
    refine ⟨a', ha', ?_⟩
    rw [hbalances'.filled_eq, hbalances.filled_eq, hposted, hsum]
    rfl
  · rw [Ledger.filled_eq_traded hagrees'.lawful, htraded]

/-- Two and a half are offered and half of one is bought. Three are left to be sold instead of two,
and one of them is bought. -/
def trading : List Call :=
  [.addInstrument (.plain "X"),
    .submit (.handing 1) (.limit "X" .sell 1 (.scaled 25 1)),
    .submit (.handing 2) (.limit "X" .buy 1 (.scaled 5 1)),
    .modify (.handing 3) ⟨.ofNat 1⟩ ⟨none, .scaled 3 0⟩,
    .submit (.handing 4) (.market "X" .buy 1)]

/-- Of the two that are left, one is withdrawn. -/
def lessening : Call := .modify (.handing 5) ⟨.ofNat 1⟩ ⟨none, 1⟩

theorem quantity_conserved_trading :
    Conserved (((Engine.empty .priceTime).follow [] trading).2.perform lessening)
        ((Engine.empty .priceTime).follow [] trading).1 ∧
      (accounts ((Engine.empty .priceTime).follow [] (trading ++ [lessening])).1).map
          (fun a => (a.quantity.atoms, a.filled.atoms)) =
        [(10, 10), (5, 5), (25, 15)].map fun a : Int × Int => (a.1 * tenTo 27, a.2 * tenTo 27) := by
  have hrange : ExactRange 1 (((Engine.empty .priceTime).follow [] trading).2.perform lessening ::
      ((Engine.empty .priceTime).follow [] trading).1) :=
    ⟨by decide, by decide +kernel, by decide +kernel⟩
  exact ⟨quantity_conserved ((History.start.follow trading).turn lessening) hrange _ _
    (List.suffix_refl _), by decide +kernel⟩

end Bourse
