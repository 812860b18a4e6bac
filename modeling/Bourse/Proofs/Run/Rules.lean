import Bourse.Proofs.Engine.Shares
import Bourse.Proofs.Run.Conservation
import Bourse.Proofs.Run.Requeue

/-!
# Everything obeys the rules of its instrument

The rules of an instrument are looked at when an order comes in and when one is modified,
and at no other time. That is enough. A resting order keeps the price it was let in with,
and a trade is made at the price of one (`Engine.Suited`); all quantities are shares of
those that were let in (`Engine.Shares`), and a share is no larger than the whole. That
shares are in whole lots as well takes differences without rounding.
-/

namespace Bourse

namespace InstrumentConfig

/-- A positive price on the grid of ticks, if there is one. -/
structure AllowsPrice (i : InstrumentConfig) (price : Price) : Prop where
  pos : 0 < price
  tick : AllowedBy (fun tick => tick.atoms ∣ price.atoms) i.tickSize

/-- A positive quantity that is not above the bound in force. -/
structure AllowsSize (i : InstrumentConfig) (q : Quantity) : Prop where
  pos : 0 < q
  le : q ≤ i.effectiveMax

/-- A quantity on the grid of lots, if there is one. -/
def InLots (i : InstrumentConfig) (q : Quantity) : Prop :=
  AllowedBy (fun lot => lot.atoms ∣ q.atoms) i.lotSize

instance (i : InstrumentConfig) (q : Quantity) : Decidable (i.InLots q) := by
  unfold InLots
  infer_instance

theorem AllowsPrice.sameValue {i : InstrumentConfig} {price price' : Price}
    (h : i.AllowsPrice price) (hv : price'.SameValue price) : i.AllowsPrice price' := by
  have hv : price'.atoms = price.atoms := hv
  refine ⟨?_, ?_⟩
  · show (0 : Decimal).atoms < price'.atoms
    rw [hv]
    exact h.pos
  · rw [hv]
    exact h.tick

/-- A share is no larger than the whole. -/
theorem inherited_le (i : InstrumentConfig) : Quantity.Inherited (· ≤ i.effectiveMax) := by
  intro a b c ha _ hpos _ hsub
  exact Int.le_trans (Decimal.sub_le hsub (Int.le_of_lt hpos)) ha

/-- A quantity in lots that can be added and taken away without rounding. -/
structure Exact (p : Decimal.Precision) (i : InstrumentConfig) (q : Quantity) : Prop where
  nonneg : 0 ≤ q.atoms
  le_cap : q.atoms ≤ p.cap
  grid : p.grid ∣ q.atoms
  lots : i.InLots q

/-- `Exact` shares of lots are lots. -/
theorem inherited_exact {p : Decimal.Precision} (hp : p.slack = 0) (i : InstrumentConfig) :
    Quantity.Inherited (Exact p i) := by
  intro a b c ha hb hpos hle hsub
  have hle : b.atoms ≤ a.atoms := hle
  have hpos : (0 : Int) < b.atoms := hpos
  have hcap := ha.le_cap
  obtain ⟨d, hd, hgrid, hup, hlo⟩ := p.sub_of_le ha.grid hb.grid (by omega) (by omega)
  rw [hsub] at hd
  cases hd
  rw [hp] at hup hlo
  have hdiff : c.atoms = a.atoms - b.atoms := by omega
  refine ⟨by omega, by omega, hgrid, ?_⟩
  have hlots := ha.lots
  have hlots' := hb.lots
  unfold InLots at hlots hlots' ⊢
  cases hlot : i.lotSize with
  | none => trivial
  | some lot =>
      rw [hlot] at hlots hlots'
      rw [hdiff]
      exact Int.dvd_sub hlots hlots'

end InstrumentConfig

theorem Order.Suits.allowsPrice {config : InstrumentConfig} {o : Order} {price : Price}
    (h : o.Suits config) (hprice : o.price = some price) : config.AllowsPrice price := by
  obtain ⟨hpos, htick⟩ := Engine.allowed_of_checkTerms (hprice ▸ h.priced)
  exact ⟨hpos, htick⟩

theorem Order.Suits.price_isSome {config : InstrumentConfig} {o : Order} (h : o.Suits config) :
    ∃ price, o.price = some price := by
  have hterms := h.priced
  cases hprice : o.price with
  | none =>
      rw [hprice] at hterms
      cases hterms
  | some price => exact ⟨price, rfl⟩

theorem Turn.mem_trades {t : Turn} {u : Trade} : u ∈ t.trades ↔ .trade u ∈ t.events := by
  unfold Turn.trades
  rw [List.mem_filterMap]
  refine ⟨fun ⟨ev, hev, htrade⟩ => ?_, fun hev => ⟨_, hev, rfl⟩⟩
  cases ev with
  | trade v =>
      cases htrade
      exact hev
  | update v => cases htrade

section Shares

variable {R : InstrumentConfig → Quantity → Prop} {past : List Turn} {e : Engine}

/-- A call that comes to its end trades shares and leaves shares. -/
theorem Engine.perform_shares (h : e.Shares R) (hR : ∀ config, Quantity.Inherited (R config))
    (hs : e.Sound) (hl : e.Lively) (hlisted : e.Listed) (hsuited : e.Suited) (call : Call)
    (hok : (e.perform call).answer.fault? = none)
    (hq : ∀ q, (e.perform call).accepted? = some q → ∀ config : InstrumentConfig,
      config.checkQuantity q = .ok () → R config q) :
    (e.perform call).after.Shares R ∧ ∀ u ∈ (e.perform call).trades, e.Deals R u := by
  have hanswered := answered hok
  simp only [Turn.mem_trades]
  cases call with
  | addInstrument config =>
      refine ⟨h.addInstrument config, fun u hu => ?_⟩
      rw [show (e.perform (.addInstrument config)).events = [] from addInstrument_events e config]
        at hu
      cases hu
  | submit world intent =>
      obtain ⟨res, ha⟩ := hanswered
      refine h.submit hR hs ha fun r hr => hq _ ?_
      rw [accepted?_submit ha, hr]
      rfl
  | cancel world id =>
      obtain ⟨res, ha⟩ := hanswered
      obtain ⟨hshares, hnone⟩ := h.cancel hs ha
      exact ⟨hshares, fun u hu => absurd hu (hnone u)⟩
  | modify world id request =>
      obtain ⟨res, ha⟩ := hanswered
      refine h.modify hR hs hl hlisted hsuited ha fun r hr => hq _ ?_
      rw [accepted?_modify ha, hr]
      rfl

/-- What holds of all quantities that have been accepted, and is `Inherited` by shares, holds of all
that is traded and of all that rests. -/
theorem History.shares (h : Run past e) (hok : Faultless past)
    (hR : ∀ config, Quantity.Inherited (R config))
    (hq : ∀ q ∈ past.filterMap Turn.accepted?, ∀ config : InstrumentConfig,
      config.checkQuantity q = .ok () → R config q) :
    e.Shares R ∧ ∀ t ∈ past, ∀ u ∈ t.trades, t.before.Deals R u := by
  induction h with
  | start => exact ⟨Engine.Each.empty _ _, fun t ht => by cases ht⟩
  | @turn past e call h ih =>
      have hpast : Faultless past := fun t ht => hok t (List.mem_cons_of_mem _ ht)
      obtain ⟨hshares, htrades⟩ := ih hpast fun q hmem => hq q <|
        (List.Sublist.filterMap _ (List.sublist_cons_self _ _)).subset hmem
      obtain ⟨hs, hl, -⟩ := h.orderly hpast
      obtain ⟨hshares', htrades'⟩ := e.perform_shares hshares hR hs hl h.listed (h.suited hpast)
        call (hok _ List.mem_cons_self) fun q hacc => hq q <|
          List.mem_filterMap.mpr ⟨_, List.mem_cons_self, hacc⟩
      refine ⟨hshares', List.forall_mem_cons.mpr ⟨?_, htrades⟩⟩
      rw [before_perform]
      exact htrades'

/-- Nothing that has been accepted is above `effectiveMax`. -/
theorem History.shares_le (h : Run past e) (hok : Faultless past) :
    e.Shares (fun config q => q ≤ config.effectiveMax) ∧
      ∀ t ∈ past, ∀ u ∈ t.trades, t.before.Deals (fun config q => q ≤ config.effectiveMax) u :=
  h.shares hok InstrumentConfig.inherited_le fun _ _ _ hq =>
    (InstrumentConfig.allowed_of_checkQuantity hq).2

theorem exactSum_mem_le {qs : List Quantity} (h : ∀ q ∈ qs, 0 ≤ q.atoms) {q : Quantity}
    (hq : q ∈ qs) : q.atoms ≤ exactSum qs := by
  obtain ⟨front, back, rfl⟩ := List.append_of_mem hq
  have hfront := exactSum_nonneg fun x hx => h x (List.mem_append_left _ hx)
  have hback := exactSum_nonneg fun x hx =>
    h x (List.mem_append_right _ (List.mem_cons_of_mem _ hx))
  rw [exactSum_append, exactSum_cons]
  omega

/-- In `ExactRange` all that is traded and all that rests is in lots. -/
theorem History.shares_exact {k : Nat} (h : Run past e) (hok : Faultless past)
    (hr : ExactRange k past) :
    e.Shares (InstrumentConfig.Exact (.exact k hr.le)) ∧
      ∀ t ∈ past, ∀ u ∈ t.trades,
        t.before.Deals (InstrumentConfig.Exact (.exact k hr.le)) u := by
  refine h.shares hok (InstrumentConfig.inherited_exact rfl) fun q hq config hc => ?_
  have hpos (q : Quantity) (hq : q ∈ past.filterMap Turn.accepted?) : 0 ≤ q.atoms :=
    Int.le_of_lt (h.accepted_pos q hq)
  exact ⟨hpos q hq, Int.le_trans (exactSum_mem_le hpos hq) hr.le_cap, hr.multiple q hq,
    (InstrumentConfig.allowed_of_checkQuantity hc).1⟩

end Shares

/-- Whatever a call of a `Faultless` run trades obeys the rules of the instrument it is traded in,
and so does whatever rests afterwards: prices are positive and on the grid of ticks (`AllowsPrice`),
and quantities are positive and within the bound in force (`AllowsSize`). If the quantities that
were accepted stay in `ExactRange`, quantities are on the grid of lots too. -/
theorem instrument_rules_are_kept {past : List Turn} {e : Engine} (h : Run past e)
    (hok : Faultless past) :
    ∀ t ∈ past,
      (∀ u ∈ t.trades, ∃ i slot, t.before.lookup? u.symbol = some (i, slot) ∧
        slot.config.AllowsPrice u.price ∧ slot.config.AllowsSize u.quantity ∧
        ∀ k, ExactRange k past → slot.config.InLots u.quantity) ∧
      ∀ (i : Nat) (slot : Slot) (o : Order), t.after.slots[i]? = some slot → slot.book.Holds o →
        (∃ price, o.price = some price ∧ slot.config.AllowsPrice price) ∧
        slot.config.AllowsSize o.remaining ∧
        ∀ k, ExactRange k past → slot.config.InLots o.remaining := by
  intro t ht
  obtain ⟨earlier, hrun, hsuffix⟩ := h.upTo ht
  have hok' : Faultless (t :: earlier) := fun x hx => hok x (hsuffix.subset hx)
  refine ⟨fun u hu => ?_, fun i slot o hslot ho => ?_⟩
  · obtain ⟨i, slot, hfound, hdeals⟩ := (h.shares_le hok).2 t ht u hu
    obtain ⟨o, price, ho, hprice, hv⟩ := hdeals.price
    obtain ⟨before, call, hbefore, rfl⟩ := h.of_suffix hsuffix
    rw [before_perform] at hfound
    have hsuits := hbefore.suited (fun x hx => hok' x (List.mem_cons_of_mem _ hx)) i slot
      (Engine.slot_of_lookup? hfound) o ho
    rw [before_perform]
    refine ⟨i, slot, hfound, (hsuits.allowsPrice hprice).sameValue hv,
      ⟨hdeals.pos, hdeals.kind⟩, fun k hr => ?_⟩
    obtain ⟨j, slot', hfound', hexact⟩ := (h.shares_exact hok hr).2 _ ht u hu
    rw [before_perform, hfound] at hfound'
    cases hfound'
    exact hexact.kind.lots
  · have hsuits := hrun.suited hok' i slot hslot o ho
    obtain ⟨price, hprice⟩ := hsuits.price_isSome
    have hlively := (hrun.orderly hok').2.1 i slot hslot o ho
    exact ⟨⟨price, hprice, hsuits.allowsPrice hprice⟩,
      ⟨hlively.2, (hrun.shares_le hok').1 i slot hslot o ho⟩,
      fun k hr => ((hrun.shares_exact hok' (hr.suffix h hsuffix)).1 i slot hslot o ho).lots⟩

/-- Halves are traded at prices in quarters, two and a half at most. One and a half are offered, one
of them is bought, and then two are offered at a higher price, of which half of one is bought. -/
def halves : List Call :=
  [.addInstrument ⟨"X", some (.scaled 25 2), some (.scaled 5 1), none, some (.scaled 25 1)⟩,
    .submit (.handing 1) (.limit "X" .sell 1 (.scaled 15 1)),
    .submit (.handing 2) (.limit "X" .buy (.scaled 125 2) 1),
    .modify (.handing 3) ⟨.ofNat 1⟩ ⟨some (.scaled 15 1), .scaled 2 0⟩,
    .submit (.handing 4) (.market "X" .buy (.scaled 5 1))]

theorem instrument_rules_are_kept_halves :
    Faultless ((Engine.empty .priceTime).follow [] halves).1 ∧
      ExactRange 1 ((Engine.empty .priceTime).follow [] halves).1 ∧
      (trades ((Engine.empty .priceTime).follow [] halves).1).map
          (fun u => (u.price.atoms, u.quantity.atoms)) =
        [(15, 5), (10, 10)].map (fun a : Int × Int => (a.1 * tenTo 27, a.2 * tenTo 27)) ∧
      ∀ t ∈ ((Engine.empty .priceTime).follow [] halves).1, ∀ u ∈ t.trades,
        ∃ i slot, t.before.lookup? u.symbol = some (i, slot) ∧
          slot.config.AllowsPrice u.price ∧ slot.config.AllowsSize u.quantity ∧
          slot.config.InLots u.quantity := by
  have hok : Faultless ((Engine.empty .priceTime).follow [] halves).1 := by decide +kernel
  have hrange : ExactRange 1 ((Engine.empty .priceTime).follow [] halves).1 :=
    ⟨by decide, by decide +kernel, by decide +kernel⟩
  refine ⟨hok, hrange, by decide +kernel, fun t ht u hu => ?_⟩
  obtain ⟨i, slot, hfound, hprice, hsize, hlots⟩ :=
    (instrument_rules_are_kept (History.start.follow halves) hok t ht).1 u hu
  exact ⟨i, slot, hfound, hprice, hsize, hlots 1 hrange⟩

end Bourse
