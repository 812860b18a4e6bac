import Bourse.Delivery.Channel
import Mathlib.Data.Multiset.ZeroCons

/-!
# Traffic on a channel

Several producers, the worker and those who close a `Channel` work on it at the same time.
What each of them does is cut here into deeds that no other can come between (`Step`), and
a `Course` puts such deeds one after another in any order that the state of the channel
allows.

A producer holds the channel open from the moment it comes in with its event until the
fate of the event is on record, in `offering` and then in `uncounted`. So a channel is
shut only while no producer is inside, and one that waits for room has its event accepted
first.
-/

namespace Bourse

/-- What producers, worker and closers do. -/
inductive Deed (α : Type) where
  /-- A producer comes in with an event. -/
  | offers (a : α)
  /-- An event that was offered gets into the queue. -/
  | accepts (a : α)
  /-- An event that was offered is turned away. -/
  | refuses (a : α)
  /-- A producer has the fate of its event counted and leaves. -/
  | counts (accepted : Bool)
  /-- The worker takes an event and calls the consumer with it. -/
  | takes (a : α)
  /-- The consumer is done with an event, or failed on it. -/
  | finishes (a : α) (failed : Bool)
  /-- A closer shuts the channel. -/
  | shuts
  /-- The worker is at its end, and a closer that waits for it returns. -/
  | returns
deriving DecidableEq

/-- A channel with those who are at work on it. -/
structure Traffic (α : Type) where
  channel : Channel α
  /-- The events of the producers inside whose fate is open. -/
  offering : Multiset α
  /-- For each of the other producers inside, whether its event was accepted. -/
  uncounted : Multiset Bool
  /-- A closer has returned. -/
  closed : Bool

namespace Traffic

variable {α : Type}

/-- A channel on which nobody is at work. -/
def idle (c : Channel α) : Traffic α := ⟨c, 0, 0, false⟩

/-- No producer is inside. -/
def Quiet (t : Traffic α) : Prop := t.offering = 0 ∧ t.uncounted = 0

/-- An event that is offered now is turned away. -/
def Refusing (c : Channel α) : Prop :=
  c.isOpen = false ∨ c.isFull = true ∧ c.delivery.overflowPolicy = .dropNewest

/-- One deed. Any producer may come in at any time, and any of those inside may be the next
one to go on. Whether the consumer fails on an event is up to the consumer. -/
inductive Step : Traffic α → Deed α → Traffic α → Prop
  | offers {t : Traffic α} (a : α) : Step t (.offers a) { t with offering := a ::ₘ t.offering }
  | accepts {t : Traffic α} {a : α} {rest : Multiset α} {c : Channel α}
      (hoffering : t.offering = a ::ₘ rest) (hopen : t.channel.isOpen = true)
      (hpush : t.channel.push? a = some c) :
      Step t (.accepts a)
        { t with channel := c, offering := rest, uncounted := true ::ₘ t.uncounted }
  | refuses {t : Traffic α} {a : α} {rest : Multiset α}
      (hoffering : t.offering = a ::ₘ rest) (hrefusing : Refusing t.channel) :
      Step t (.refuses a) { t with offering := rest, uncounted := false ::ₘ t.uncounted }
  | counts {t : Traffic α} {accepted : Bool} {rest : Multiset Bool}
      (huncounted : t.uncounted = accepted ::ₘ rest) :
      Step t (.counts accepted)
        { t with channel := t.channel.count accepted, uncounted := rest }
  | takes {t : Traffic α} {a : α} {c : Channel α}
      (htake : t.channel.take = some c) (hhand : c.inHand = some a) :
      Step t (.takes a) { t with channel := c }
  | finishes {t : Traffic α} {a : α} (fails : α → Bool) (hhand : t.channel.inHand = some a) :
      Step t (.finishes a (fails a)) { t with channel := t.channel.finish fails }
  | shuts {t : Traffic α} (hquiet : t.Quiet) : Step t .shuts { t with channel := t.channel.shut }
  | returns {t : Traffic α} (hopen : t.channel.isOpen = false) (hqueue : t.channel.queue = [])
      (hhand : t.channel.inHand = none) : Step t .returns { t with closed := true }

/-- Deeds one after another, the first one first. -/
inductive Course : Traffic α → List (Deed α) → Traffic α → Prop
  | done {t : Traffic α} : Course t [] t
  | next {t u v : Traffic α} {d : Deed α} {deeds : List (Deed α)} (hstep : Step t d u)
      (hrest : Course u deeds v) : Course t (d :: deeds) v

end Traffic

/-! ### What a list of deeds tells -/

namespace Deed

variable {α : Type}

/-- The event that a producer comes in with. -/
@[simp] def offered? : Deed α → Option α
  | .offers a => some a
  | _ => none

/-- The event that gets into the queue. -/
@[simp] def accepted? : Deed α → Option α
  | .accepts a => some a
  | _ => none

/-- The event that is turned away. -/
@[simp] def refused? : Deed α → Option α
  | .refuses a => some a
  | _ => none

/-- The event that the consumer is called with. -/
@[simp] def called? : Deed α → Option α
  | .takes a => some a
  | _ => none

/-- The event that the consumer finishes. -/
@[simp] def delivered? : Deed α → Option α
  | .finishes a false => some a
  | _ => none

/-- The event that the consumer fails on. -/
@[simp] def failed? : Deed α → Option α
  | .finishes a true => some a
  | _ => none

/-- The event that the consumer is done with, either way. -/
@[simp] def finished? : Deed α → Option α
  | .finishes a _ => some a
  | _ => none

end Deed

namespace Traffic

variable {α : Type} (deeds : List (Deed α))

/-- The events offered, in their order. -/
abbrev offered : List α := deeds.filterMap Deed.offered?

/-- The events accepted, in their order. -/
abbrev accepted : List α := deeds.filterMap Deed.accepted?

/-- The events turned away, in their order. -/
abbrev refused : List α := deeds.filterMap Deed.refused?

/-- The events that the consumer was called with, in their order. -/
abbrev called : List α := deeds.filterMap Deed.called?

/-- The events that the consumer finished, in their order. -/
abbrev delivered : List α := deeds.filterMap Deed.delivered?

/-- The events that the consumer failed on, in their order. -/
abbrev failed : List α := deeds.filterMap Deed.failed?

/-- The events that the consumer was done with, in their order. -/
abbrev finished : List α := deeds.filterMap Deed.finished?

end Traffic

end Bourse
