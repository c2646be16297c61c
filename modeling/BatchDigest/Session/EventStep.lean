import BatchDigest.Session.Inspection
import BatchDigest.Session.Objects

/-!
# Steps on events

Events that no job resolves are resolved from the start, well or with a fault. A status is read at
once; joining and waiting block until the event is resolved.
-/

namespace BatchDigest

/-- A step on events. -/
inductive EventStep where
  | complete (id : String)
  | failed (id : String) (fault : Fault)
  /-- Binds a second name to an event. -/
  | share (id event : String)
  | status (event : String)
  /-- Waits and asks for the fault. -/
  | join (event : String)
  | wait (event : String)
  /-- Waits and reports the fault as an error. -/
  | throw (event : String)
  | inspect (event : String)
deriving Repr, DecidableEq

/-- Binds an event that is resolved from the start. -/
def Play.resolved (id : String) (status : Status) : Play Answer := do
  bind .events id (← host (Host.call (·.addEvent status)))
  return .done

/-- What the host does in a step on events. -/
def EventStep.play : EventStep → Play Answer
  | complete id => Play.resolved id .complete
  | failed id fault => Play.resolved id (.failed fault)
  | share id event => do
    Play.bind .events id (← Play.find .events event)
    return .done
  | status event => do
    let event ← Play.find .events event
    return .status (← Play.host (Host.ask (·.status event)))
  | join event => do
    return .fault (← Play.host (Host.join (← Play.find .events event)))
  | wait event => do
    let _ ← Play.host (Host.join (← Play.find .events event))
    return .done
  | throw event => do
    let event ← Play.find .events event
    Play.attempt (Except.mapError .device <$> Host.joinThrow event)
    return .done
  | inspect event => do
    let event ← Play.find .events event
    return .text (← Play.host (Host.ask fun m => (m.status event).inspectEvent))

end BatchDigest
