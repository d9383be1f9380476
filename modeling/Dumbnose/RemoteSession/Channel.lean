/-
  Dumbnose.RemoteSession.Channel — the members of a `remote_session_channel` and what its
  functions do to them (`remote_session_channel.hpp`).

  A coroutine is one function for each of its parts: `startAsync` to the `co_await` of
  the creation and `created` after it, `connect` to the `co_await` of the join and
  `joined` after it. The events it raises, the watcher, the controller object and the
  locks are left to the modules about interleavings; none of them writes a member kept here.

  A session is named by the call it came from: the n-th call hosts a session
  (`start_async`) or joins one (`connect`). A `RemoteSystemSessionInfo` is the session it
  is about, and the two names of that.
-/

import Dumbnose.Strings.Wide

namespace Dumbnose.RemoteSession

open Strings

/-- `RemoteSystemSessionInfo`. -/
structure SessionInfo where
  id : Nat
  displayName : WString
  controllerDisplayName : WString
  deriving DecidableEq, Repr

inductive Session where
  | hosted (call : Nat)
  | joined (call : Nat)
  deriving DecidableEq, Repr

structure Channel where
  sessionDisplayName : WString
  sessions : List SessionInfo
  session : Option Session
  /-- The session that `channel_` was made on. -/
  channel : Option Session
  isController : Bool
  started : Bool
  connected : Bool

namespace Channel

/-- The constructor and the members' initializers. -/
def new (sessionDisplayName : WString) : Channel := ⟨sessionDisplayName, [], none, none, false, false, false⟩

def clearList (c : Channel) : Channel := { c with sessions := [] }

def stop (c : Channel) : Channel := { c with started := false }.clearList

/-- `start_async` to its `co_await`: whether it gets there. -/
def startAsync (c : Channel) : Bool := !c.started

/-- `start_async` after it, with a session or with an exception that it catches. -/
def created (c : Channel) (call : Nat) (success : Bool) : Channel :=
  if success then { c with session := some (.hosted call), channel := some (.hosted call), started := true }
  else c.stop

/-- `connect` to its `co_await`, under `session_lock_`: whether it gets there. -/
def connect (c : Channel) : Bool := !c.connected

/-- `connect` after it. -/
def joined (c : Channel) (call : Nat) (success : Bool) : Channel :=
  if success then
    { c.stop with
      session := some (.joined call)
      channel := some (.joined call)
      connected := true
      isController := false }
  else c

/-- `join_requested` under `session_lock_`, after its `stop`. -/
def accept (c : Channel) : Channel :=
  if c.connected then c else { c with connected := true, isController := true }

def remoteSessionAdded (c : Channel) (info : SessionInfo) : Channel :=
  if info.displayName = c.sessionDisplayName then { c with sessions := c.sessions ++ [info] } else c

/-- `remote_session_equal_comparator`. -/
def sameController (compareTo candidate : SessionInfo) : Bool :=
  candidate.controllerDisplayName = compareTo.controllerDisplayName

/-- `none` for an erase at `end()`. -/
def remoteSessionRemoved (c : Channel) (info : SessionInfo) : Option Channel :=
  (c.sessions.findIdx? (sameController info)).map fun i => { c with sessions := c.sessions.eraseIdx i }

end Channel

end Dumbnose.RemoteSession
