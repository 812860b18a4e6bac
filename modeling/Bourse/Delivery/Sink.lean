import Bourse.Delivery.Channel
import Bourse.Engine.Basic

/-!
# Sinks

Where the events of an engine go. An engine has one `Sink` for updates and one for trades.
A sink may fail on an event; then that event is lost, a notice tells of it, and the next
event is delivered all the same. `Sinks.absorb` takes what an engine puts out after the
fact, so nothing a sink does can come back to it.
-/

namespace Bourse

/-- Where events of one stream go. -/
inductive Sink where
  /-- Events are ignored. -/
  | ignore
  /-- Events are written to the log. -/
  | log
  /-- Events are kept, oldest first. -/
  | memory (kept : List Event)
  /-- Events on which it fails are lost and all others kept. -/
  | failing (fails : Event → Bool) (kept : List Event)
  /-- Events are queued for a worker, whose consumer keeps up with them. -/
  | channel (c : Channel Event)

namespace Sink

/-- A consumer that never fails. -/
def steady (_ : Event) : Bool := false

/-- Takes an event. -/
def accept (s : Sink) (e : Event) : Sink × List Notice :=
  match s with
  | .ignore => (s, [])
  | .log => (s, [.logged e])
  | .memory kept => (.memory (kept ++ [e]), [])
  | .failing fails kept =>
    if fails e then (s, [.eventDropped e]) else (.failing fails (kept ++ [e]), [])
  | .channel c =>
    match c.offer e with
    | none => (s, [])
    | some (c, notices) => (.channel (c.drain steady), notices)

/-- What the sink has kept, oldest first. -/
def kept : Sink → List Event
  | .ignore | .log => []
  | .memory kept => kept
  | .failing _ kept => kept
  | .channel c => c.consumed

/-- Forgets what it has kept. -/
def clear : Sink → Sink
  | .memory _ => .memory []
  | .failing fails _ => .failing fails []
  | s => s

/-- Accepts nothing more, if it is a channel. -/
def close : Sink → Sink
  | .channel c => .channel (c.close steady)
  | s => s

end Sink

/-- The two sinks of an engine. -/
structure Sinks where
  updates : Sink
  trades : Sink

namespace Sinks

/-- Delivers an event to the sink of its stream. -/
def deliver (s : Sinks) (e : Event) : Sinks × List Notice :=
  match e with
  | .update _ =>
    let (updates, notices) := s.updates.accept e
    ({ s with updates }, notices)
  | .trade _ =>
    let (trades, notices) := s.trades.accept e
    ({ s with trades }, notices)

/-- Delivers what an operation puts out and gives the log of it. -/
def absorb (s : Sinks) : List Output → Sinks × List Notice
  | [] => (s, [])
  | .notice n :: rest =>
    let (s, log) := s.absorb rest
    (s, n :: log)
  | .event e :: rest =>
    let (s, notices) := s.deliver e
    let (s, log) := s.absorb rest
    (s, notices ++ log)

end Sinks

end Bourse
