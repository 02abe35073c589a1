import HttpServer.Admission.Tasks
import HttpServer.Connection.Stage
/-!
# Traffic

All clients of a server and all its tasks at once. Clients connect, send, end their sides and are
dropped; the tasks move connections (`Tasks.Step`), the workers serve those they have and the
refusers send their refusal (`Link.Step`). `Traffic.Step` is any one of these steps, and
`Traffic.Reachable` the states that any interleaving of them can reach.

A client is known by the number of its connection.
-/
namespace HttpServer

/-- A server with all its clients. -/
structure Traffic where
  tasks : Tasks
  links : Nat → Link

namespace Traffic

/-- A server that has just started, before anyone connects. -/
def initial (limits : ServerLimits) : Traffic := ⟨.initial limits, fun _ => {}⟩

def update (w : Traffic) (c : Nat) (l : Link) : Traffic :=
  { w with links := fun d => if d = c then l else w.links d }

/-- What a refuser is to do for a connection. Without refusers it is closed unanswered. -/
def refusal (limits : ServerLimits) : Stage :=
  if limits.refusers = 0 then .idle else .sending Rejection.serviceUnavailable.wire none

/-- The connections after a step of the tasks: one that is taken gets something to be done, and one
that ends has nothing left, whatever was to be done for it. -/
def move (s : Service) (limits : ServerLimits) (w : Traffic) : Tasks.Move → Traffic
  | .start _ c => w.update c { w.links c with stage := .receiving (.new s.requests) }
  | .refuse _ c => w.update c { w.links c with stage := refusal limits }
  | .finish _ c | .dismiss _ c => w.update c { w.links c with stage := .idle }
  | .accept _ | .count | .place => w

inductive Step (s : Service) (limits : ServerLimits) (w : Traffic) : Traffic → Prop where
  | connect (c : Nat) : Step s limits w (w.update c { w.links c with connected := true })
  | send (c : Nat) (bytes : Bytes) (connected : (w.links c).connected = true)
      (alive : (w.links c).ended = false ∧ (w.links c).broken = none) :
    Step s limits w (w.update c { w.links c with
      sent := (w.links c).sent ++ bytes, held := (w.links c).held ++ bytes })
  | finish (c : Nat) (connected : (w.links c).connected = true) :
    Step s limits w (w.update c { w.links c with ended := true })
  | drop (c : Nat) (kind : IoKind) (whole : (w.links c).broken = none) :
    Step s limits w (w.update c { w.links c with broken := some kind })
  /-- One of the tasks does a step. Only those who have connected are accepted. -/
  | move {move : Tasks.Move} {tasks : Tasks} (step : w.tasks.Step limits move tasks)
      (connected : ∀ c, move = .accept c → (w.links c).connected = true) :
    Step s limits w { w.move s limits move with tasks }
  | work {i c : Nat} {l : Link} (has : w.tasks.workers[i]? = some (some c))
      (step : (w.links c).Step s l) : Step s limits w (w.update c l)
  | turnAway {i c : Nat} {l : Link} (has : w.tasks.refusers[i]? = some (some c))
      (step : (w.links c).Step s l) : Step s limits w (w.update c l)

/-- The states that clients and server can reach, in whatever order they take their steps. -/
inductive Reachable (s : Service) (limits : ServerLimits) : Traffic → Prop where
  | initial : Reachable s limits (initial limits)
  | step {w w' : Traffic} (h : Reachable s limits w) (next : Step s limits w w') :
    Reachable s limits w'

end Traffic
end HttpServer
