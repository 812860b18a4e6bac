import Bourse.Proofs.Engine.Listed
import Bourse.Proofs.Engine.Lively

/-!
# Resting orders suit their instruments

What rests has once passed the checks of its instrument, or has been given a price that
has: it `Suits` its instrument. So if it were asked for again now, on the terms it has, it
would pass them again; and `checkRequest` checks a request to modify it just as
`checkIntent` would the order that it asks for (`Order.Suits.checkIntent_again`).
-/

namespace Bourse

/-- The order may wait in the book of an instrument, and on its price the instrument has nothing
to object. -/
structure Order.Suits (config : InstrumentConfig) (o : Order) : Prop where
  waits : Desk.Waits o
  symbol_eq : o.symbol = config.symbol
  priced : Engine.checkTerms config .limit o.price = .ok ()

theorem Order.Suits.same {config : InstrumentConfig} {o o' : Order} (h : o.Suits config)
    (hs : o.Same o') : o'.Suits config where
  waits := by
    unfold Desk.Waits
    rw [hs.orderType_eq, hs.timeInForce_eq]
    exact h.waits
  symbol_eq := hs.symbol_eq.trans h.symbol_eq
  priced := by
    rw [hs.price_eq]
    exact h.priced

/-- What is asked for if an order is to be sent in anew as a request would have it: a limit order
under the same identity that waits, at the new price if there is one. -/
def Order.again (o : Order) (request : ModifyRequest) : OrderIntent where
  symbol := o.symbol
  side := o.side
  orderType := .limit
  price := request.price.or o.price
  quantity := request.quantity
  timeInForce := .goodTillCancel
  orderId := some o.id

/-- A request is checked like the order that it asks for with `again`. -/
theorem Order.Suits.checkIntent_again {config : InstrumentConfig} {o : Order}
    (h : o.Suits config) (request : ModifyRequest) :
    Engine.checkIntent config (o.again request) = Engine.checkRequest config request := by
  rw [Engine.checkIntent_eq, Engine.checkRequest_eq]
  have hquantity : (o.again request).quantity = request.quantity := rfl
  have hterms : Engine.checkTerms config (o.again request).orderType (o.again request).price =
      Engine.checkTerms config .limit (request.price.or o.price) := rfl
  rw [hterms, hquantity]
  by_cases hq : request.quantity ≤ 0
  · rw [if_pos hq, if_pos hq]
  · rw [if_neg hq, if_neg hq]
    cases request.price with
    | none => rw [Option.none_or, h.priced]
    | some p =>
        rw [Option.some_or]
        unfold Engine.checkTerms
        by_cases hp : p ≤ 0
        · simp only [if_pos hp]
        · simp only [if_neg hp]

/-- Everything in a book `Suits` the instrument. -/
def Book.Suited (config : InstrumentConfig) (b : Book) : Prop := ∀ o, b.Holds o → o.Suits config

namespace Desk

variable {config : InstrumentConfig} {world : Surroundings} {o : Order} {d d' : Desk}
  {id : OrderId}

theorem suited_worn {b b' : Book} (h : b.Suited config) (hw : Book.Worn b b') :
    b'.Suited config := by
  intro x hx
  obtain ⟨y, hy, hf⟩ := hw.from_fills x hx
  exact (h y hy).same hf.same

theorem Executed.suited {r : OrderResult} (h : Executed world o d r d') (hent : Enters o d)
    (hb : d.book.Suited config) (ho : Waits o → o.Suits config) : d'.book.Suited config := by
  cases h with
  | killed _ _ hbook _ _ _ _ =>
      rw [hbook]
      exact hb
  | matched _ hm _ _ hset _ _ _ _ _ _ =>
      have hs := hent.sound
      have hfilled := hm.filled hs
      have hworn := suited_worn hb (hm.worn hs)
      generalize d'.book = b at hset ⊢
      cases hset with
      | done _ => exact hworn
      | dropped _ _ _ => exact hworn
      | rests hpos hwaits hins =>
          have harr := hent.arrived hfilled (hm.worn hs) hwaits.1 hpos hins
          have hsuits : o.Suits config := by
            refine ho ?_
            unfold Waits at hwaits ⊢
            rw [← hfilled.same.orderType_eq, ← hfilled.same.timeInForce_eq]
            exact hwaits
          intro x hx
          rcases (harr.holds_iff x).mp hx with rfl | hx
          · exact hsuits.same hfilled.same
          · exact hworn x hx

theorem Cancelled.suited {r : CancelResult} (h : Cancelled world id d r d')
    (hb : d.book.Suited config) : d'.book.Suited config := by
  cases h with
  | absent _ => exact hb
  | dead _ _ _ hdep => exact suited_worn hb (.of_departed hdep)
  | found _ _ _ hdep _ _ _ _ _ => exact suited_worn hb (.of_departed hdep)

theorem Modified.suited {request : ModifyRequest} {r : ModifyResult}
    (h : Modified world id request d r d') (hready : d.Ready)
    (hchecked : Engine.checkRequest config request = .ok ()) (hb : d.book.Suited config) :
    d'.book.Suited config := by
  cases h with
  | absent _ => exact hb
  | same _ _ _ _ => exact hb
  | lessened ho _ _ _ _ hset hrew _ _ _ _ =>
      intro x hx
      rcases (hrew.holds_iff x).mp hx with rfl | ⟨hx, -⟩
      · exact (hb _ ho).same (Order.same_of_setRemaining hset)
      · exact hb x hx
  | @requeued o _ _ _ _ ho _ _ _ hdep hset hexec =>
      have hq := (Engine.passed_of_checkRequest hchecked).1
      have hent := hready.enters ho (Int.le_of_lt hq) hdep hset
      have hsuits := hb o ho
      have hagain := hsuits.checkIntent_again request
      rw [hchecked] at hagain
      obtain ⟨_, _, -, -, rfl⟩ := Order.setRemaining_eq_ok hset
      refine (executed_of_ok hent.sound hexec).suited hent (suited_worn hb (.of_departed hdep))
        fun _ => ⟨hsuits.waits, hsuits.symbol_eq, ?_⟩
      exact Engine.checkTerms_of_checkIntent hagain

end Desk

namespace Engine

/-- Every resting order suits the instrument of its slot. -/
def Suited (e : Engine) : Prop := e.Each Book.Suited

variable {e : Engine} {i : Nat} {slot : Slot} {world : Surroundings} {id : OrderId}

theorem symbol_of_lookup? {symbol : String} (h : e.lookup? symbol = some (i, slot)) :
    slot.config.symbol = symbol := by
  have hslot := slot_of_lookup? h
  unfold lookup? at h
  cases hi : e.slots.findIdx? (fun slot => decide (slot.config.symbol = symbol)) with
  | none => rw [hi] at h; cases h
  | some j =>
      obtain ⟨hlt, hj, -⟩ := List.findIdx?_eq_some_iff_getElem.mp hi
      rw [hi] at h
      change (e.slots[j]?).bind (fun slot => some (j, slot)) = some (i, slot) at h
      rw [List.getElem?_eq_getElem hlt] at h
      cases h
      exact of_decide_eq_true hj

/-- Nothing comes to rest that does not suit if nothing comes to rest at all. -/
theorem Suited.of_rests {e' : Engine} (h : e.Suited) (hc : e'.configs = e.configs)
    (hrests : ∀ j o, e'.Rests j o → e.Rests j o) : e'.Suited := by
  intro j slot' hj o ho
  obtain ⟨slot, hslot, hold⟩ := hrests j o ⟨slot', hj, ho⟩
  have hconfig : some slot'.config = some slot.config := by
    have heq := congrArg (fun cs : List InstrumentConfig => cs[j]?) hc
    simpa only [configs, List.getElem?_map, hj, hslot, Option.map_some] using heq
  rw [Option.some.inj hconfig]
  exact h j slot hslot o hold

theorem Suited.addInstrument (h : e.Suited) (config : InstrumentConfig) :
    (e.addInstrument config).engine.Suited :=
  Each.addInstrument h config fun _ ho => absurd ho (Book.not_holds_empty _ _)

theorem Suited.submit {intent : OrderIntent} {res : Except Rejection OrderResult}
    (h : e.Suited) (hs : e.Sound) (ha : (e.submit world intent).answer = .ok res) :
    (e.submit world intent).engine.Suited := by
  refine Each.submit h hs ha fun _ hadm hbook hent hexec => ?_
  refine hexec.suited hent hbook fun hwaits => ?_
  refine ⟨hwaits, (symbol_of_lookup? hadm.found).symm, ?_⟩
  have hterms := checkTerms_of_checkIntent hadm.checked
  rw [show intent.orderType = .limit from hwaits.1] at hterms
  exact hterms

theorem Suited.cancel {r : CancelResult} (h : e.Suited) (hs : e.Sound)
    (ha : (e.cancel world id).answer = .ok r) : (e.cancel world id).engine.Suited :=
  Each.cancel h hs ha fun _ hbook hcancel => hcancel.suited hbook

theorem Suited.modify {request : ModifyRequest} {r : ModifyResult} (h : e.Suited)
    (hs : e.Sound) (hl : e.Lively) (ha : (e.modify world id request).answer = .ok r) :
    (e.modify world id request).engine.Suited :=
  Each.modify h hs ha fun hslot hchecked hbook hmod =>
    hmod.suited (hs.ready hl.live hslot) hchecked hbook

end Engine

end Bourse
