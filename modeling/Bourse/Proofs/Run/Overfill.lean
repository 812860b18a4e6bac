import Bourse.Proofs.Ledger.Drawn

/-!
# An order may trade more than it asks for

It may, because what is left of it is rounded. Of a large quantity and a small one the
difference has more digits than a decimal holds; if it is rounded up, the order has more
left than it should, and trades that, too (`farApart`). In a run of submissions and
cancellations this is the only way to an overfill, whether or not calls stop at faults,
and it needs quantities of more than 28 digits between them. The accounts of such a run
are kept by `Keeping.drawn`.
-/

namespace Bourse

open Decimal

/-- The call is a `modify`. -/
def Call.modifies : Call → Bool
  | .modify _ _ _ => true
  | .addInstrument _ | .submit _ _ | .cancel _ _ => false

theorem Engine.perform_drawn {faultless : Prop} {L : Ledger} {e : Engine} (hs : e.Sound)
    (hL : (Keeping.drawn faultless).Agrees L e.Resting) {call : Call}
    (hcall : call.modifies = false)
    (hfault : faultless → (e.perform call).answer.fault? = none) :
    (e.perform call).after.Sound ∧ (Keeping.drawn faultless).Entered L (e.perform call) := by
  cases call with
  | addInstrument config =>
      exact ⟨addInstrument_sound hs config, Keeping.entered_addInstrument hL config⟩
  | submit world intent =>
      exact ⟨submit_sound hs world intent, Keeping.drawn_submit hL hs hfault⟩
  | cancel world id => exact ⟨cancel_sound hs world id, Keeping.drawn_cancel hL hs hfault⟩
  | modify world id request => cases hcall

theorem History.drawn {past : List Turn} {e : Engine} (h : Run past e)
    (hcalls : ∀ t ∈ past, t.call.modifies = false) {faultless : Prop}
    (hfault : faultless → Faultless past) :
    e.Sound ∧ (Keeping.drawn faultless).Agrees (accounts past) e.Resting := by
  induction h with
  | start =>
      refine ⟨Engine.sound_empty, ?_, fun a ha => by cases ha⟩
      rintro o ⟨i, slot, hslot, -⟩
      cases hslot
  | @turn past e call h ih =>
      obtain ⟨hs, hL⟩ := ih (fun t ht => hcalls t (List.mem_cons_of_mem _ ht))
        fun hf t ht => hfault hf t (List.mem_cons_of_mem _ ht)
      have hcall : call.modifies = false := by
        rw [← call_perform e call]
        exact hcalls _ List.mem_cons_self
      obtain ⟨hs', hentered⟩ := Engine.perform_drawn hs hL hcall
        fun hf => hfault hf _ List.mem_cons_self
      exact ⟨hs', hentered.agrees⟩

/-- The `accounts` after a turn keep to what the guard is worth, and those of the orders that rest
or that were answered with are right about them up to rounding. -/
structure DrawnUp (t : Turn) (earlier : List Turn) : Prop where
  guarded : ∀ a ∈ accounts (t :: earlier), a.Guarded
  resting : ∀ id o, t.after.order? id = some o →
    (Keeping.drawn (Faultless (t :: earlier))).Keeps (accounts (t :: earlier)) o
  answered : ∀ o, t.answer.order? = some o →
    (Keeping.drawn (Faultless (t :: earlier))).Keeps (accounts (t :: earlier)) o

/-- In a run of submissions and cancellations an order trades more than it asks for only if
rounding has left it more than it should have. -/
theorem overfilled_only_by_rounding {past : List Turn} {e : Engine} (h : Run past e)
    (hcalls : ∀ t ∈ past, t.call.modifies = false) :
    ∀ t earlier, t :: earlier <:+ past → DrawnUp t earlier := by
  intro t earlier ht
  obtain ⟨before, call, hrun, rfl⟩ := h.of_suffix ht
  have hcall : call.modifies = false := by
    rw [← call_perform before call]
    exact hcalls _ (ht.subset List.mem_cons_self)
  obtain ⟨hs, hL⟩ := hrun.drawn
    (fun t' ht' => hcalls t' (ht.subset (List.mem_cons_of_mem _ ht')))
    fun (hf : Faultless (before.perform call :: earlier)) t' ht' =>
      hf t' (List.mem_cons_of_mem _ ht')
  obtain ⟨hs', hentered⟩ := Engine.perform_drawn hs hL hcall fun hf => hf _ List.mem_cons_self
  refine ⟨hentered.agrees.lawful, fun id o ho => ?_, hentered.answered⟩
  exact hentered.agrees.keeps o ((Engine.order?_iff hs').mp ho).1

/-- The most that may be offered is offered, and `10 ^ -11` of it is bought. What is left has one
digit more than a decimal holds, is rounded up to what was offered, and is bought as well. -/
def farApart : List Call :=
  [.addInstrument (.plain "X"),
    .submit (.handing 1) (.limit "X" .sell 1 maxOrderQuantity),
    .submit (.handing 2) (.market "X" .buy (.scaled 1 11)),
    .submit (.handing 3) (.market "X" .buy maxOrderQuantity)]

theorem overfilled_only_by_rounding_farApart :
    (∀ t earlier, t :: earlier <:+ ((Engine.empty .priceTime).follow [] farApart).1 →
        DrawnUp t earlier) ∧
      (accounts ((Engine.empty .priceTime).follow [] farApart).1).map
          (fun a => exactSum a.trades - a.quantity.atoms) =
        [0, 0, (tenTo 17 : Int)] :=
  ⟨overfilled_only_by_rounding (History.start.follow farApart) (by decide +kernel),
    by decide +kernel⟩

/-- Not every order keeps to the quantity that it asks for. -/
theorem overfilled_farApart :
    ¬ ∀ past e, Run past e → (∀ t ∈ past, t.call.modifies = false) →
      ∀ a ∈ accounts past, exactSum a.trades ≤ a.quantity.atoms := by
  intro h
  have hall := h _ _ (History.start.follow farApart) (by decide +kernel)
  revert hall
  decide +kernel

end Bourse
