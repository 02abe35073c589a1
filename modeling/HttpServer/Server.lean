import HttpServer.Admission
import HttpServer.Connection
/-!
# Servers and their clients

A server as its clients see it: they connect, send, read and leave, one step after another, and
before each step the server has done all it can. What a client receives depends on its own bytes and
on where its connection went: the session of the connection if a worker took it, the response for a
full queue if it overflowed, and nothing as long as it waits.

While a client waits for bytes that do not come, time passes, and with it the time that the server
gives its silent clients.
-/
namespace HttpServer

/-- A client and what it has done. -/
structure Client where
  chunks : List Bytes := []
  ending : Option Ending := none
  overflowed : Bool := false
  /-- The number of bytes that the client has read. -/
  taken : Nat := 0

/-- The client after it has sent bytes. Once its side is at its end nothing is read of them. -/
def Client.send (client : Client) (bytes : Bytes) : Client :=
  if client.ending.isSome then client else { client with chunks := client.chunks ++ [bytes] }

/-- The client after its side has come to this end, unless it has ended before. -/
def Client.finish (client : Client) (ending : Ending) : Client :=
  { client with ending := client.ending.or (some ending) }

/-- What can be read from the client. As long as its side is open the next bytes cannot be read yet. -/
def Client.incoming (client : Client) : Incoming :=
  ⟨client.chunks, client.ending.getD (.failed .wouldBlock)⟩

inductive ClientStep where
  | connect (c : Nat)
  | send (c : Nat) (bytes : Bytes)
  /-- The client reads `n` bytes, or fewer if the server closes before. -/
  | read (c : Nat) (n : Nat)
  /-- The client ends its side and reads until the server closes. -/
  | finish (c : Nat)
  | drop (c : Nat)

def ClientStep.client : ClientStep → Nat
  | connect c | send c _ | read c _ | finish c | drop c => c

def ClientStep.bytes? : ClientStep → Option Bytes
  | send _ bytes => some bytes
  | _ => none

structure Server where
  service : Service
  limits : ServerLimits
  admission : Admission := {}
  clients : List (Nat × Client) := []

namespace Server

def client (s : Server) (c : Nat) : Client := (s.clients.lookup c).getD {}

def update (s : Server) (c : Nat) (f : Client → Client) : Server :=
  { s with clients := s.clients.map fun (d, client) => (d, if d = c then f client else client) }

/-- The session of a connection as far as it has come. -/
def session (s : Server) (c : Nat) : Session := s.service.run (s.client c).incoming .attentive

/-- Whether the session waits for its client. -/
def isIdle (s : Server) (c : Nat) : Bool :=
  match (s.session c).result with
  | .error .wouldBlock => true
  | _ => false

def wire (s : Server) (c : Nat) : Bytes :=
  if (s.client c).overflowed then Admission.refusalBytes s.limits
  else if s.admission.waiting.contains c then []
  else (s.session c).wire

/-- The next move that the server can make by itself. -/
def nextMove? (s : Server) : Option Admission.Event :=
  match s.admission.served.find? (!s.isIdle ·) with
  | some c => some (.finish c)
  | none =>
    match s.admission.waiting, s.admission.overflow, s.admission.refused with
    | c :: _, overflow, refused =>
      if s.admission.served.length < s.limits.workers then some (.start c)
      else match overflow, refused with
        | d :: _, [] => some (.refuse d)
        | _, d :: _ => some (.finish d)
        | [], [] => none
    | [], d :: _, [] => some (.refuse d)
    | [], _, d :: _ => some (.finish d)
    | [], [], [] => none

def advance (s : Server) : Server :=
  match s.nextMove? with
  | none => s
  | some event =>
    match s.admission.step? s.limits event with
    | none => s
    | some admission => { s with admission }

def advanceBy : Nat → Server → Server
  | 0, s => s
  | n + 1, s => advanceBy n s.advance

/-- The server when it has done all it can: a connection moves at most twice after it was
accepted. -/
def settled (s : Server) : Server := s.advanceBy (2 * s.admission.known.length)

/-- The server after the time for a read is over for all sessions that wait. -/
def pass (s : Server) : Server :=
  settled ((s.admission.served.filter s.isIdle).foldl
    (fun s c => s.update c fun client => client.finish .silent) s)

/-- The server when a client has `n` bytes to read or is served no more. Each time that passes ends
all sessions that wait, so that the next connections are served. -/
def awaiting (c n : Nat) : (rounds : Nat) → Server → Server
  | 0, s => s
  | rounds + 1, s =>
    if s.admission.finished.contains c || (s.client c).taken + n ≤ (s.wire c).length then s
    else awaiting c n rounds s.pass

/-- The next `n` bytes for a client, and the server after the client has read them. -/
def deliver (s : Server) (c n : Nat) : Bytes × Server :=
  let bytes := ((s.wire c).drop (s.client c).taken).take n
  (bytes, s.update c fun client => { client with taken := client.taken + bytes.length })

/-- What a client gets by a step, if the step reads, and the server afterwards. -/
def step (s : Server) : ClientStep → Option Bytes × Server
  | .connect c =>
    match s.admission.step? s.limits (.accept c) with
    | none => (none, s)
    | some admission =>
      let client : Client := { overflowed := admission.overflow.contains c }
      (none, settled { s with admission, clients := s.clients ++ [(c, client)] })
  | .send c bytes =>
    (none, settled (s.update c fun client => client.send bytes))
  | .drop c =>
    (none, settled (s.update c fun client => client.finish (.failed .connectionReset)))
  | .read c n =>
    let s := awaiting c n (s.admission.known.length + 1) s
    let (bytes, s) := s.deliver c n
    (some bytes, s)
  | .finish c =>
    let s := settled (s.update c fun client => client.finish .ended)
    let s := awaiting c ((s.wire c).length + 1) (s.admission.known.length + 1) s
    let (bytes, s) := s.deliver c (s.wire c).length
    (some bytes, s)

def run (s : Server) : List ClientStep → List (Option Bytes)
  | [] => []
  | step :: steps => (s.step step).1 :: (s.step step).2.run steps

def after (s : Server) (steps : List ClientStep) : Server :=
  steps.foldl (fun s step => (s.step step).2) s

def sentBy (c : Nat) (steps : List ClientStep) : List Bytes :=
  steps.flatMap fun step => if step.client = c then step.bytes?.toList else []

def delivered (s : Server) (c : Nat) (steps : List ClientStep) : Bytes :=
  (steps.zip (s.run steps)).flatMap fun (step, result) =>
    if step.client = c then result.getD [] else []

/-! ## Setting up -/

/-- What a server cannot be without. -/
inductive MissingPart where
  | listener
  | root
  deriving DecidableEq

def MissingPart.text : MissingPart → String
  | listener => "The `listener` method must be called to create"
  | root => "The `root` method must be called to create"

end Server
end HttpServer
