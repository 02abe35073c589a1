import HttpServer.Limits
import HttpServer.Rejection
/-!
# Admission

An accepted connection waits for a worker if the queue has a place for it, and otherwise goes to
those who refuse connections. A worker takes the connection that waits longest and keeps it to its
end; a refuser does the same with those that found no place.

`Admission.step?` is the one place where connections move: `start` and `refuse` are the moves of the
workers and the refusers, in any order, and `finish` is the end of a connection, whether it was
served or failed. Connections are known by numbers.
-/
namespace HttpServer

structure Admission where
  /-- Connections that wait for a worker, the longest waiting first. -/
  waiting : List Nat := []
  /-- Connections that found no place and wait for a refuser. -/
  overflow : List Nat := []
  served : List Nat := []
  refused : List Nat := []
  finished : List Nat := []
  deriving DecidableEq

namespace Admission

inductive Event where
  | accept (c : Nat)
  /-- A worker takes the connection that waits longest. -/
  | start (c : Nat)
  /-- A refuser takes the connection that overflowed first. -/
  | refuse (c : Nat)
  | finish (c : Nat)
  deriving DecidableEq

/-- All connections that were accepted. -/
def known (a : Admission) : List Nat :=
  a.waiting ++ a.overflow ++ a.served ++ a.refused ++ a.finished

/-- Those who take overflowing connections. Without refusers one still closes them, unanswered. -/
def refusers (limits : ServerLimits) : Nat := max limits.refusers 1

/-- All that is sent to a connection that found no place. -/
def refusalBytes (limits : ServerLimits) : Bytes :=
  if limits.refusers = 0 then [] else Rejection.serviceUnavailable.wire

/-- The connections after a move, if it is possible. -/
def step? (limits : ServerLimits) (a : Admission) : Event → Option Admission
  | .accept c =>
    if a.known.contains c then none
    else if a.waiting.length < limits.maxPending then some { a with waiting := a.waiting ++ [c] }
    else some { a with overflow := a.overflow ++ [c] }
  | .start c =>
    match a.waiting with
    | [] => none
    | d :: rest =>
      if c = d ∧ a.served.length < limits.workers then
        some { a with waiting := rest, served := a.served ++ [c] }
      else none
  | .refuse c =>
    match a.overflow with
    | [] => none
    | d :: rest =>
      if c = d ∧ a.refused.length < refusers limits then
        some { a with overflow := rest, refused := a.refused ++ [c] }
      else none
  | .finish c =>
    if a.served.contains c then
      some { a with served := a.served.erase c, finished := a.finished ++ [c] }
    else if a.refused.contains c then
      some { a with refused := a.refused.erase c, finished := a.finished ++ [c] }
    else none

def run? (limits : ServerLimits) (events : List Event) : Option Admission :=
  events.foldlM (step? limits) {}

end Admission
end HttpServer
