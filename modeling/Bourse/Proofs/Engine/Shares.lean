import Bourse.Proofs.Engine.Suited
import Bourse.Proofs.Matching.Shares

/-!
# What is traded and what rests comes from what was checked

An order comes in with a quantity that has passed the checks of its instrument, or is
given one that has. Everything after that is taking shares of it. So a property that all
quantities have that come in to an instrument, and that is `Quantity.Inherited` by shares,
is one of all quantities that are traded there (`Deals`) or rest there (`Shares`).
-/

namespace Bourse

namespace Desk

/-- A trade under a symbol with an order of a book, at the price of the order and for a positive
quantity of a kind. -/
structure Deals (R : Quantity → Prop) (b : Book) (symbol : String) (t : Trade) : Prop where
  symbol_eq : t.symbol = symbol
  pos : 0 < t.quantity
  kind : R t.quantity
  price : ∃ o price, b.Holds o ∧ o.price = some price ∧ t.price.SameValue price

section Shares

variable {R : Quantity → Prop} {world : Surroundings} {o : Order} {d d' : Desk} {id : OrderId}

/-- A trade that is told of is the `tradeOf` a fill. -/
theorem Narrates.of_trade {taker : Order} {fills : List Fill} {trades : List Trade}
    {events : List Event} {t : Trade} (h : Narrates world taker fills trades events)
    (ht : .trade t ∈ events) : ∃ fill ∈ fills, ∃ n, t = tradeOf world taker fill n := by
  induction h with
  | none => cases ht
  | @some fill _ _ _ n _ _ _ _ ih =>
      rcases List.mem_cons.mp ht with heq | ht
      · cases heq
        exact ⟨fill, List.mem_cons_self, n, rfl⟩
      · rcases List.mem_cons.mp ht with heq | ht
        · cases heq
        · obtain ⟨fill, hfill, hn⟩ := ih ht
          exact ⟨fill, List.mem_cons_of_mem _ hfill, hn⟩

theorem Executed.inherits {r : OrderResult} (h : Executed world o d r d')
    (hR : Quantity.Inherited R) (hent : Enters o d) (he : d.emitted = [])
    (hb : d.book.Shares R) (ho : R o.remaining) :
    d'.book.Shares R ∧ ∀ t, .trade t ∈ d'.emitted → Deals R d.book o.symbol t := by
  cases h with
  | killed _ _ hbook _ hemitted _ _ =>
      rw [hbook, hemitted, he]
      exact ⟨hb, fun t ht => by cases List.mem_singleton.mp ht⟩
  | matched _ hm _ hstory hset _ hemitted _ _ _ _ =>
      have hs := hent.sound
      have hfilled := hm.filled hs
      obtain ⟨hdealt, hbook, hleft⟩ := hm.inherits hR hs hb ho
      refine ⟨fun x hx => ?_, fun t ht => ?_⟩
      · rcases hset.rest hent hfilled (hm.worn hs) hx with rfl | hx
        · rw [hset.left.2]
          exact hleft
        · exact hbook x hx
      · rw [hemitted, he, List.nil_append, List.mem_append, List.mem_singleton] at ht
        obtain ⟨fill, hfill, n, rfl⟩ := hstory.of_trade (ht.resolve_right (by simp))
        obtain ⟨m, hmem, rfl⟩ := List.mem_map.mp hfill
        obtain ⟨hpos, hprice⟩ := hm.terms hs hmem
        exact ⟨hfilled.same.symbol_eq, hpos, hdealt m hmem, hprice⟩

theorem Cancelled.inherits {r : CancelResult} (h : Cancelled world id d r d')
    (he : d.emitted = []) (hb : d.book.Shares R) :
    d'.book.Shares R ∧ ∀ t, .trade t ∉ d'.emitted := by
  cases h with
  | absent _ => exact ⟨hb, fun t ht => by rw [he] at ht; cases ht⟩
  | dead _ _ _ hdep =>
      exact ⟨fun x hx => hb x ((hdep.holds_iff x).mp hx).1, fun t ht => by
        rw [show ({ d with book := _ } : Desk).emitted = [] from he] at ht; cases ht⟩
  | found _ _ _ hdep _ hemitted _ _ _ =>
      rw [hemitted, he]
      exact ⟨fun x hx => hb x ((hdep.holds_iff x).mp hx).1, fun t ht => by
        cases List.mem_singleton.mp ht⟩

theorem Modified.inherits {config : InstrumentConfig} {request : ModifyRequest} {r : ModifyResult}
    (h : Modified world id request d r d') (hR : Quantity.Inherited R) (hready : d.Ready)
    (he : d.emitted = []) (hb : d.book.Shares R) (hsuited : d.book.Suited config)
    (hpos : 0 < request.quantity) (hq : R request.quantity) :
    d'.book.Shares R ∧ ∀ t, .trade t ∈ d'.emitted → Deals R d.book config.symbol t := by
  cases h with
  | absent _ => exact ⟨hb, fun t ht => by rw [he] at ht; cases ht⟩
  | same _ _ _ _ => exact ⟨hb, fun t ht => by rw [he] at ht; cases ht⟩
  | lessened _ _ _ _ _ hset hrew _ hemitted _ _ =>
      rw [hemitted, he]
      refine ⟨fun x hx => ?_, fun t ht => by cases List.mem_singleton.mp ht⟩
      rcases (hrew.holds_iff x).mp hx with rfl | ⟨hx, -⟩
      · obtain ⟨_, _, -, -, rfl⟩ := Order.setRemaining_eq_ok hset
        exact hq
      · exact hb x hx
  | @requeued o _ b _ _ ho _ _ _ hdep hset hexec =>
      have hent := hready.enters ho (Int.le_of_lt hpos) hdep hset
      have hrest (x : Order) (hx : b.Holds x) : d.book.Holds x := ((hdep.holds_iff x).mp hx).1
      obtain ⟨_, _, -, -, rfl⟩ := Order.setRemaining_eq_ok hset
      obtain ⟨hbook, htrades⟩ := (executed_of_ok hent.sound hexec).inherits hR hent he
        (fun x hx => hb x (hrest x hx)) hq
      refine ⟨hbook, fun t ht => ?_⟩
      obtain ⟨hsymbol, hsize, hkind, x, price, hx, hprice⟩ := htrades t ht
      exact ⟨hsymbol.trans (hsuited o ho).symbol_eq, hsize, hkind, x, price, hrest x hx, hprice⟩

end Shares

end Desk

namespace Engine

/-- What is left of every resting order is of the kind of its instrument. -/
def Shares (R : InstrumentConfig → Quantity → Prop) (e : Engine) : Prop :=
  e.Each fun config b => b.Shares (R config)

/-- A trade with an order that rests in the engine, of the kind of its instrument. -/
def Deals (R : InstrumentConfig → Quantity → Prop) (e : Engine) (t : Trade) : Prop :=
  ∃ (i : Nat) (slot : Slot), e.lookup? t.symbol = some (i, slot) ∧
    Desk.Deals (R slot.config) slot.book slot.config.symbol t

section Shares

variable {R : InstrumentConfig → Quantity → Prop} {e : Engine} {world : Surroundings}
  {id : OrderId}

theorem Shares.addInstrument (h : e.Shares R) (config : InstrumentConfig) :
    (e.addInstrument config).engine.Shares R :=
  Each.addInstrument h config fun _ ho => absurd ho (Book.not_holds_empty _ _)

/-- An order that `submit` accepts brings a quantity that has been checked. -/
theorem Shares.submit {intent : OrderIntent} {res : Except Rejection OrderResult}
    (h : e.Shares R) (hR : ∀ config, Quantity.Inherited (R config)) (hs : e.Sound)
    (ha : (e.submit world intent).answer = .ok res)
    (hq : ∀ r, res = .ok r → ∀ config : InstrumentConfig,
      config.checkQuantity intent.quantity = .ok () → R config intent.quantity) :
    (e.submit world intent).engine.Shares R ∧
      ∀ t, .trade t ∈ (e.submit world intent).events → e.Deals R t := by
  refine ⟨Each.submit h hs ha fun hr hadm hbook hent hexec => (hexec.inherits (hR _) hent rfl hbook
    (hq _ hr _ (checkQuantity_of_checkIntent hadm.checked))).1, fun t ht => ?_⟩
  cases res with
  | error why =>
      obtain ⟨u, heq, -⟩ := (submit_of_rejected hs ha).events _ ht
      cases heq
  | ok r =>
      obtain ⟨i, slot, d, hadm, hexec, -, hevents⟩ := submit_of_ok hs ha
      have hent := hadm.enters hs.toInOrder
      have hbook := h i slot (slot_of_lookup? hadm.found)
      rw [hevents] at ht
      obtain ⟨hsymbol, hpos, hkind, hprice⟩ := ((Desk.executed_of_ok hent.sound hexec).inherits
        (hR slot.config) hent rfl hbook
        (hq r rfl _ (checkQuantity_of_checkIntent hadm.checked))).2 t ht
      have hfound : e.lookup? t.symbol = some (i, slot) := by
        rw [hsymbol]
        exact hadm.found
      exact ⟨i, slot, hfound, (symbol_of_lookup? hfound).symm, hpos, hkind, hprice⟩

theorem Shares.cancel {r : CancelResult} (h : e.Shares R) (hs : e.Sound)
    (ha : (e.cancel world id).answer = .ok r) :
    (e.cancel world id).engine.Shares R ∧ ∀ t, .trade t ∉ (e.cancel world id).events := by
  refine ⟨Each.cancel h hs ha fun _ hbook hcancel => (hcancel.inherits rfl hbook).1, ?_⟩
  rcases cancel_of_ok hs ha with ⟨-, hevents, -⟩ | ⟨i, slot, d, hl, hcancel, -, hevents⟩
  · rw [hevents]
    exact fun t => List.not_mem_nil
  · rw [hevents]
    exact (hcancel.inherits rfl (h i slot (route_of_locate? hl).1)).2

/-- An order that `modify` changes is given a quantity that has been checked. -/
theorem Shares.modify {request : ModifyRequest} {r : ModifyResult} (h : e.Shares R)
    (hR : ∀ config, Quantity.Inherited (R config)) (hs : e.Sound) (hl : e.Lively)
    (hlisted : e.Listed) (hsuited : e.Suited) (ha : (e.modify world id request).answer = .ok r)
    (hq : ∀ result, r = .modified result → ∀ config : InstrumentConfig,
      config.checkQuantity request.quantity = .ok () → R config request.quantity) :
    (e.modify world id request).engine.Shares R ∧
      ∀ t, .trade t ∈ (e.modify world id request).events → e.Deals R t := by
  by_cases hmodified : ∃ result, r = .modified result
  · obtain ⟨result, hresult⟩ := hmodified
    rcases modify_of_ok hs ha with ⟨-, -, hnot⟩ | ⟨i, slot, d, hr, hmod, hengine, hevents⟩
    · exact absurd hresult (hnot result)
    · have hslot := (route_of_locate? hr.found).1
      obtain ⟨hbook, htrades⟩ := hmod.inherits (hR slot.config) (hs.ready hl.live hslot) rfl
        (h i slot hslot) (hsuited i slot hslot) (passed_of_checkRequest hr.checked).1
        (hq result hresult _ (checkQuantity_of_checkRequest hr.checked))
      rw [hengine, hevents]
      refine ⟨Each.leave h hslot hbook, fun t ht => ⟨i, slot, ?_, htrades t ht⟩⟩
      rw [(htrades t ht).symbol_eq]
      exact hlisted.lookup?_eq hslot
  · obtain ⟨hengine, hevents⟩ :=
      modify_unmodified hs ha fun result hresult => hmodified ⟨result, hresult⟩
    rw [hengine, hevents]
    exact ⟨h, fun t ht => by cases ht⟩

end Shares

end Engine

end Bourse
