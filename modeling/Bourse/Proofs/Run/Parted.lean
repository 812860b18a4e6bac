import Bourse.Proofs.Book.Packed
import Bourse.Proofs.Engine.Parted
import Bourse.Proofs.Run.Priority

/-!
# All books stay parted

What a call that comes to its end leaves of a `Parted` book is parted, so in a `Faultless`
run all books are: their bids are below their asks, and no level is without orders.
Neither the length of the run nor the size of what is sent in has a part in that.
-/

namespace Bourse

namespace Desk

/-- A cancellation of what can still trade keeps the bids below the asks. -/
theorem Cancelled.parted {world : Surroundings} {id : OrderId} {d d' : Desk} {r : CancelResult}
    (h : Cancelled world id d r d') (hlive : ∀ o, d.book.Holds o → o.status.isLive = true)
    (hb : d.book.Parted) : d'.book.Parted := by
  cases h with
  | absent _ => exact hb
  | dead ho _ hdead _ =>
      rw [hlive _ ho] at hdead
      cases hdead
  | found ho hid _ _ _ _ _ _ htake =>
      subst hid
      exact hb.take ho htake

end Desk

namespace Engine

/-- Every book is parted. -/
def Parted (e : Engine) : Prop := e.Each fun _ b => b.Parted

variable {e : Engine} {world : Surroundings} {id : OrderId}

theorem Parted.addInstrument (h : e.Parted) (config : InstrumentConfig) :
    (e.addInstrument config).engine.Parted :=
  Each.addInstrument h config ⟨Book.sound_empty _, Book.apart_empty _, Book.packed_empty _⟩

theorem Parted.submit {intent : OrderIntent} {res : Except Rejection OrderResult}
    (h : e.Parted) (hs : e.Sound) (ha : (e.submit world intent).answer = .ok res) :
    (e.submit world intent).engine.Parted :=
  Each.submit h hs ha fun _ _ hbook hent hexec => hexec.parted hent hbook

theorem Parted.cancel {r : CancelResult} (h : e.Parted) (hs : e.Sound) (hl : e.Lively)
    (ha : (e.cancel world id).answer = .ok r) : (e.cancel world id).engine.Parted :=
  Each.cancel h hs ha fun hslot hbook hcancel =>
    hcancel.parted (fun o ho => (hl _ _ hslot o ho).1) hbook

theorem Parted.modify {request : ModifyRequest} {r : ModifyResult} (h : e.Parted) (hs : e.Sound)
    (hl : e.Lively) (ha : (e.modify world id request).answer = .ok r) :
    (e.modify world id request).engine.Parted :=
  Each.modify h hs ha fun hslot hchecked hbook hmod =>
    hmod.parted (hs.ready hl.live hslot) hbook (passed_of_checkRequest hchecked).1

theorem perform_parted (h : e.Parted) (hs : e.Sound) (hl : e.Lively) (call : Call)
    (hok : (e.perform call).answer.fault? = none) : (e.perform call).after.Parted := by
  refine perform_of_answered (P := fun t => t.after.Parted) ?_ ?_ ?_ ?_ hok
  · exact fun config => h.addInstrument config
  · exact fun _ _ _ ha => h.submit hs ha
  · exact fun _ _ _ ha => h.cancel hs hl ha
  · exact fun _ _ _ _ ha => h.modify hs hl ha

end Engine

/-- As long as no call meets a fault, all books are `Parted`. -/
theorem History.parted {past : List Turn} {e : Engine} (h : Run past e) (hok : Faultless past) :
    e.Parted :=
  History.invariant (P := fun _ => Engine.Parted) (Engine.Each.empty _ _)
    (fun _ _ call hparted hs hl => Engine.perform_parted hparted hs hl call) h hok

end Bourse
