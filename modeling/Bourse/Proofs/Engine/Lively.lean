import Bourse.Proofs.Engine.Each

/-!
# Resting orders are live

An order that rests is live and has something left. Fills that use an order up take it out
of the book, and nothing but a fault could come between the two; so an engine whose calls
have all come to their end is `Lively`: it holds no order that could not trade. What each
operation leaves in its own book is said of `Executed`, `Cancelled` and `Modified` desks,
and `Each` carries it to the engine.
-/

namespace Bourse

namespace Desk

variable {world : Surroundings} {o : Order} {d d' : Desk} {r : OrderResult} {id : OrderId}

theorem Executed.lively (h : Executed world o d r d') (hent : Enters o d) (hl : d.book.Lively) :
    d'.book.Lively := by
  cases h with
  | killed _ _ hbook _ _ =>
      rw [hbook]
      exact hl
  | matched _ hm _ _ hset _ _ =>
      have hs := hent.sound
      have hl' := hm.lively hs hl
      generalize d'.book = b at hset ⊢
      cases hset with
      | done _ => exact hl'
      | dropped _ _ _ => exact hl'
      | rests hpos hwaits hins =>
          have hfilled := hm.filled hs
          have harr := hent.arrived hfilled (hm.worn hs) hwaits.1 hpos hins
          intro x hx
          rcases (harr.holds_iff x).mp hx with rfl | hx
          · exact ⟨hfilled.isLive hent.live hpos, hpos⟩
          · exact hl' x hx

theorem Cancelled.lively {r : CancelResult} (h : Cancelled world id d r d')
    (hl : d.book.Lively) : d'.book.Lively := by
  cases h with
  | absent _ => exact hl
  | dead _ _ _ hdep => exact fun x hx => hl x ((hdep.holds_iff x).mp hx).1
  | found _ _ _ hdep _ _ => exact fun x hx => hl x ((hdep.holds_iff x).mp hx).1

theorem Modified.lively {request : ModifyRequest} {r : ModifyResult}
    (h : Modified world id request d r d') (hready : d.Ready) (hl : d.book.Lively)
    (hq : 0 < request.quantity) : d'.book.Lively := by
  cases h with
  | absent _ => exact hl
  | same _ _ _ _ => exact hl
  | lessened ho _ _ _ _ hset hrew _ _ _ =>
      intro x hx
      rcases (hrew.holds_iff x).mp hx with rfl | ⟨hx, -⟩
      · obtain ⟨_, _, -, -, rfl⟩ := Order.setRemaining_eq_ok hset
        exact ⟨(hl _ ho).1, hq⟩
      · exact hl x hx
  | requeued ho _ _ _ hdep hset hexec =>
      have hent := hready.enters ho (Int.le_of_lt hq) hdep hset
      have hl' : Book.Lively (d.rearrived _).book :=
        fun x hx => hl x ((hdep.holds_iff x).mp hx).1
      exact (executed_of_ok hent.sound hexec).lively hent hl'

end Desk

namespace Engine

/-- Every book is `Book.Lively`: what rests can still trade. -/
def Lively (e : Engine) : Prop := e.Each fun _ b => b.Lively

variable {e : Engine} {world : Surroundings} {id : OrderId}

theorem Lively.live (h : e.Lively) : e.Live := by
  rintro j o ⟨slot, hslot, ho⟩
  exact (h j slot hslot o ho).1

theorem Lively.addInstrument (h : e.Lively) (config : InstrumentConfig) :
    (e.addInstrument config).engine.Lively :=
  Each.addInstrument h config fun _ ho => absurd ho (Book.not_holds_empty _ _)

theorem Lively.submit {intent : OrderIntent} {res : Except Rejection OrderResult}
    (h : e.Lively) (hs : e.Sound) (ha : (e.submit world intent).answer = .ok res) :
    (e.submit world intent).engine.Lively :=
  Each.submit h hs ha fun _ _ hbook hent hexec => hexec.lively hent hbook

theorem Lively.cancel {r : CancelResult} (h : e.Lively) (hs : e.Sound)
    (ha : (e.cancel world id).answer = .ok r) : (e.cancel world id).engine.Lively :=
  Each.cancel h hs ha fun _ hbook hcancel => hcancel.lively hbook

theorem Lively.modify {request : ModifyRequest} {r : ModifyResult} (h : e.Lively)
    (hs : e.Sound) (ha : (e.modify world id request).answer = .ok r) :
    (e.modify world id request).engine.Lively :=
  Each.modify h hs ha fun hslot hchecked hbook hmod =>
    hmod.lively (hs.ready h.live hslot) hbook (passed_of_checkRequest hchecked).1

end Engine

end Bourse
