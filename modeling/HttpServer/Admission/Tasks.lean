import HttpServer.Admission
/-!
# The tasks of a server

A server is a number of tasks that run at the same time: one accepts connections, the workers serve
them, and the refusers turn them away. They share nothing but two queues.

`Admission` has one move for the arrival of a connection. The task that accepts needs three steps for
it: it gets the connection, counts those that wait, and puts it into a queue. Between the count and
the queue workers can take connections, so the count may be out of date by then. `Tasks.Step` has all
these steps, and `Tasks.Reachable` the states that any interleaving of them can reach.

A part of a state only records what happened, so that one can speak about it later.
-/
namespace HttpServer

/-- What the task that accepts connections does next. -/
inductive Acceptor where
  | idle
  | counting (c : Nat)
  /-- The task has counted `n` connections that wait and puts its own into a queue. -/
  | placing (c n : Nat)
  deriving DecidableEq

/-- The connection that the task has and has not put into a queue. -/
def Acceptor.hand : Acceptor → List Nat
  | idle => []
  | counting c | placing c _ => [c]

/-- The connection that the task has found no place for and not yet put into a queue. -/
def Acceptor.rejected (limits : ServerLimits) : Acceptor → List Nat
  | placing c n => if n < limits.maxPending then [] else [c]
  | _ => []

/-- The tasks of a server and their queues, and a record of what came to which of them, in order. -/
structure Tasks where
  acceptor : Acceptor := .idle
  waiting : List Nat := []
  overflow : List Nat := []
  workers : List (Option Nat)
  refusers : List (Option Nat)
  finished : List Nat := []
  arrived : List Nat := []
  accepted : List Nat := []
  queued : List Nat := []
  /-- The connections that were turned away, each with the number of those that waited when it was
  accepted. -/
  overflowed : List (Nat × Nat) := []
  started : List Nat := []
  deriving DecidableEq

inductive Place where
  | waiting
  | overflow
  | worker (i : Nat)
  | refuser (i : Nat)
  | finished
  deriving DecidableEq

namespace Tasks

def initial (limits : ServerLimits) : Tasks :=
  { workers := List.replicate limits.workers none
    refusers := List.replicate (Admission.refusers limits) none }

/-- The connections that some tasks have. -/
def held (tasks : List (Option Nat)) : List Nat := tasks.filterMap id

def known (t : Tasks) : List Nat :=
  t.waiting ++ t.overflow ++ held t.workers ++ held t.refusers ++ t.finished

def places (t : Tasks) (c : Nat) : List Place :=
  (t.waiting.filter (· == c)).map (fun _ => .waiting)
    ++ (t.overflow.filter (· == c)).map (fun _ => .overflow)
    ++ (t.workers.zipIdx.filter (·.1 == some c)).map (fun (_, i) => .worker i)
    ++ (t.refusers.zipIdx.filter (·.1 == some c)).map (fun (_, i) => .refuser i)
    ++ (t.finished.filter (· == c)).map (fun _ => .finished)

/-- The name of a step. -/
inductive Move where
  | accept (c : Nat)
  | count
  | place
  | start (i c : Nat)
  | finish (i c : Nat)
  | refuse (i c : Nat)
  | dismiss (i c : Nat)

inductive Step (limits : ServerLimits) (t : Tasks) : Move → Tasks → Prop where
  | accept {c : Nat} (idle : t.acceptor = .idle) (new : c ∉ t.arrived) :
    Step limits t (.accept c) { t with acceptor := .counting c, arrived := t.arrived ++ [c] }
  | count {c : Nat} (counting : t.acceptor = .counting c) :
    Step limits t .count { t with acceptor := .placing c t.waiting.length }
  /-- There was a place when those that wait were counted. -/
  | queue {c n : Nat} (placing : t.acceptor = .placing c n) (room : n < limits.maxPending) :
    Step limits t .place { t with
      acceptor := .idle
      waiting := t.waiting ++ [c]
      accepted := t.accepted ++ [c]
      queued := t.queued ++ [c] }
  /-- There was no place. -/
  | turnAway {c n : Nat} (placing : t.acceptor = .placing c n) (full : limits.maxPending ≤ n) :
    Step limits t .place { t with
      acceptor := .idle
      overflow := t.overflow ++ [c]
      accepted := t.accepted ++ [c]
      overflowed := t.overflowed ++ [(c, n)] }
  | start {i c : Nat} {rest : List Nat} (idle : t.workers[i]? = some none)
      (first : t.waiting = c :: rest) :
    Step limits t (.start i c) { t with
      waiting := rest
      workers := t.workers.set i (some c)
      started := t.started ++ [c] }
  /-- The connection of a worker ends, by itself or because serving it failed. -/
  | finish {i c : Nat} (busy : t.workers[i]? = some (some c)) :
    Step limits t (.finish i c) { t with
      workers := t.workers.set i none
      finished := t.finished ++ [c] }
  | refuse {i c : Nat} {rest : List Nat} (idle : t.refusers[i]? = some none)
      (first : t.overflow = c :: rest) :
    Step limits t (.refuse i c) { t with
      overflow := rest
      refusers := t.refusers.set i (some c) }
  | dismiss {i c : Nat} (busy : t.refusers[i]? = some (some c)) :
    Step limits t (.dismiss i c) { t with
      refusers := t.refusers.set i none
      finished := t.finished ++ [c] }

/-- The states that the tasks can reach, in whatever order they take their steps. -/
inductive Reachable (limits : ServerLimits) : Tasks → Prop where
  | initial : Reachable limits (initial limits)
  | step {t t' : Tasks} {move : Move} (h : Reachable limits t) (s : Step limits t move t') :
    Reachable limits t'

/-- The state of the admission that the tasks amount to. A connection counts as overflowed as soon as
no place was found for it. The order of those that are kept does not matter. -/
structure Shows (limits : ServerLimits) (t : Tasks) (a : Admission) : Prop where
  waiting : a.waiting = t.waiting
  overflow : a.overflow = t.overflow ++ t.acceptor.rejected limits
  served : a.served.Perm (held t.workers)
  refused : a.refused.Perm (held t.refusers)
  finished : a.finished = t.finished

end Tasks
end HttpServer
