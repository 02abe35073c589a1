import HttpServer.Startup
import Std.Async.TCP
import Std.Async.Timer
/-!
# The program

The program reads its environment, takes in the directory to serve, listens, and lets the library
decide what becomes of each connection and of each of its bytes. Only the files, the sockets and the
passing of time are handled here.
-/
namespace HttpServer.Program

open Std.Async Std.Net

/-- The time for one read, in milliseconds. -/
def readTime : Nat := 10000

/-- The time for which bytes that nobody wants are still taken from a client, in milliseconds. -/
def lingerTime : Nat := 1000

def environment : IO Settings.Environment := do
  let names := [Settings.addressVariable, Settings.rootVariable, Settings.backlogVariable,
    Settings.logVariable]
  let values ← names.mapM fun name => return (name, (← IO.getEnv name).map Bytes.ofString)
  return fun name => (values.lookup name).join

/-! ## Files -/

def causeOf : IO.Error → IoError
  | .noFileOrDirectory .. => .system .noEntry
  | .inappropriateType .. => .system .notDirectory
  | .permissionDenied .. => .system .accessDenied
  | .resourceBusy .. => .system .addressInUse
  | .unsupportedOperation .. => .system .addressNotAvailable
  | e => .transport .other e.toString

def succeeds {α : Type} (action : IO α) : IO Bool := do
  try
    discard action
    return true
  catch _ => return false

/-- The node of a directory entry. Links are followed, up to a depth, and a directory that cannot be
listed shows no entries. -/
partial def readNode (depth : Nat) (entry : IO.FS.DirEntry) : IO (Option Tree.Node) := do
  try
    let info ← entry.path.metadata
    match info.type with
    | .file =>
      try
        return some (.file true (← IO.FS.readBinFile entry.path).data.toList)
      catch _ => return some (.file false [])
    | .dir =>
      if depth = 0 then return none
      let searchable ← succeeds (entry.path / ".").metadata
      try
        let nodes ← (← entry.path.readDir).toList.filterMapM fun entry => do
          return (← readNode (depth - 1) entry).map (Bytes.ofString entry.fileName, ·)
        return some (.directory true nodes searchable)
      catch _ => return some (.directory false [] searchable)
    | _ => return some (.pipe true)
  catch _ => return none

def readRoot (path : String) : IO DocumentRoot := do
  let top ← IO.FS.realPath path
  let nodes ← (← top.readDir).toList.filterMapM fun entry => do
    return (← readNode Tree.maxLinks entry).map (Bytes.ofString entry.fileName, ·)
  return { place := { node := .directory true nodes (← succeeds (top / ".").metadata) } }

/-! ## Connections -/

def receive (client : TCP.Socket.Client) (room : Nat) : Async Incoming := do
  if room = 0 then return { chunks := [], ending := .ended }
  try
    let chunk := .case (client.recvSelector (min room 65536).toUInt64) fun chunk =>
      return { chunks := (chunk.toList.map fun bytes => bytes.data.toList), ending := .ended }
    let silence := .case (← Selector.sleep (.ofNat readTime)) fun _ =>
      return { chunks := [], ending := .silent }
    Selectable.one #[chunk, silence]
  catch _ => return { chunks := [], ending := .failed .connectionReset }

def sendBytes (client : TCP.Socket.Client) (bytes : Bytes) : Async Unit := do
  if !bytes.isEmpty then client.send ⟨bytes.toArray⟩

/-- Ends the server's side, and takes what the client still sends for a while. -/
partial def close (client : TCP.Socket.Client) : Async Unit := do
  client.shutdown
  let deadline := (← IO.monoMsNow) + lingerTime
  drain deadline
where
  drain (deadline : Nat) : Async Unit := do
    let now ← IO.monoMsNow
    if now < deadline then
      let chunk := .case (client.recvSelector 1024) fun chunk => return chunk.isSome
      let timeout := .case (← Selector.sleep (.ofNat (deadline - now))) fun _ => return false
      if ← Selectable.one #[chunk, timeout] then drain deadline

/-- Serves a client until its connection ends. -/
partial def serve (service : Service) (client : TCP.Socket.Client) (buffer : ReceiveBuffer) :
    Async Unit := do
  let room := match buffer.makeRoom with
    | .ok b => b.room
    | .error _ => 0
  match buffer.fill (← receive client room) with
  | (⟨.error e, _⟩, _) => sendBytes client (e.session .attentive).wire
  | (⟨.ok 0, _⟩, _) => return
  | (⟨.ok _, filled⟩, _) =>
    let done := service.answerPending filled .attentive
    sendBytes client done.wire
    match done.turn with
    | .close | .drop _ => return
    | .reject e => sendBytes client (e.session .attentive).wire
    | .receive => serve service client done.buffer.shift

/-! ## The server -/

/-- Lets a connection wait for its turn, serves or refuses it, and ends it. -/
partial def attend (server : Server) (admission : IO.Ref Admission) (c : Nat)
    (client : TCP.Socket.Client) : Async Unit := do
  let move (event : Admission.Event) : Async Bool := admission.modifyGet fun a =>
    match a.step? server.limits event with
    | some a => (true, a)
    | none => (false, a)
  let attempt (work : Async Unit) : Async Unit := do
    try
      work
      close client
    catch _ => pure ()
    discard <| move (.finish c)
    admission.modify fun a => { a with finished := [] }
  if ← move (.start c) then
    attempt (serve server.service client (.new server.service.requests))
  else if ← move (.refuse c) then
    attempt (sendBytes client (server.wire c))
  else
    (← Selector.sleep (.ofNat 1)) |> fun tick => Selectable.one #[.case tick pure]
    attend server admission c client

/-- Accepts connections for ever. -/
partial def acceptAll (server : Server) (admission : IO.Ref Admission)
    (listener : TCP.Socket.Server) (c : Nat) : Async Unit := do
  let client ← listener.accept
  let overflowed ← admission.modifyGet fun a =>
    let a := (a.step? server.limits (.accept c)).getD a
    (a.overflow.contains c, a)
  background (attend { server with clients := [(c, { overflowed })] } admission c client)
  acceptAll server admission listener (c + 1)

def socketAddress (a : HttpServer.SocketAddress) : Std.Net.SocketAddress :=
  match a.ip with
  | .v4 octets =>
    .v4 ⟨⟨.ofFn fun i => (octets.getD i 0).toUInt8⟩, a.port.toUInt16⟩
  | .v6 groups =>
    .v6 ⟨⟨.ofFn fun i => (groups.getD i 0).toUInt16⟩, a.port.toUInt16⟩

/-- Ends the program with the error that kept it from starting. -/
def fail (e : IoError) : IO UInt32 := do
  (← IO.getStderr).putStr (Startup.complaint e)
  return 1

def run : IO UInt32 := do
  match Settings.load (← environment) with
  | .error e => fail e
  | .ok settings =>
    try
      let docs ← readRoot ((String.fromUTF8? ⟨settings.root.toArray⟩).getD "")
      let listener ← TCP.Socket.Server.mk
      listener.bind (socketAddress settings.address)
      listener.listen (settings.backlog % 0x100000000).toNat.toUInt32
      let started : Startup := { settings, docs, address := settings.address }
      (acceptAll started.server (← IO.mkRef {}) listener 0).block
      return 0
    catch e => fail (causeOf e)

end HttpServer.Program

def main : IO UInt32 := HttpServer.Program.run
