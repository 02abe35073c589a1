import HttpServer.Connection.InPlace
import HttpServer.Path.Checked
import HttpServer.Request.Checked
/-!
# Requests answered by places

`process` takes a request from a storage as `Service.processInPlace` does, and every place, range, sum and
difference on the way is that of an operation that can fault: those of the storage, those of the head
and the body, those of the path and those of a file name.
-/
namespace HttpServer.Checked

open Bytes

/-! ## Storages -/

def pending (st : Storage) : Checked Bytes := slice st.cells st.consumed st.received

/-- The storage with the first `n` pending bytes answered, and there must be as many. -/
def consume (st : Storage) (n : Nat) : Checked Storage := do
  let place ← sum st.consumed n
  assert (place ≤ st.received)
  .ok { st with consumed := min place st.received }

def moveToFront (cells : Bytes) (start stop : Nat) : Checked Bytes :=
  if start ≤ stop ∧ stop ≤ cells.length then .ok (moveCells start 0 (stop - start) cells)
  else .error .outOfRange

def shift (st : Storage) : Checked Storage :=
  if st.consumed = 0 then .ok st
  else do
    let cells ← moveToFront st.cells st.consumed st.received
    let received ← difference st.received st.consumed
    .ok { st with cells, received, consumed := 0 }

def reserve (memory : Memory) (st : Storage) (total : Nat) : Checked (Storage.Outcome Unit) :=
  if total > st.maxSize then .ok ⟨.error .payloadTooLarge, st⟩
  else do
    let stop ← sum st.consumed total
    if stop ≤ st.size then .ok ⟨.ok (), st⟩
    else
      let st ← shift st
      if total > st.size then
        match st.resize memory total with
        | .error e => .ok ⟨.error e, st⟩
        | .ok st => .ok ⟨.ok (), st⟩
      else .ok ⟨.ok (), st⟩

/-! ## Responses -/

def lastPlaceOf? (b : UInt8) (s : Bytes) : Option Nat :=
  (placeOf? b s.reverse).map fun i => s.length - 1 - i

def afterLast? (b : UInt8) (s : Bytes) : Checked (Option Bytes) :=
  match lastPlaceOf? b s with
  | none => .ok none
  | some place => do
    let rest ← sliceFrom s (← sum place 1)
    .ok (some rest)

def contentType (path : Bytes) : Checked Bytes := do
  let segment := (← afterLast? slash path).getD path
  match ← afterLast? 0x2e segment with
  | none => .ok StaticFile.unknownType
  | some extension => .ok ((StaticFile.knownTypes.lookup extension).getD StaticFile.unknownType)

def serve (root : DocumentRoot) (path : Bytes) : Checked Response :=
  let relative := StaticFile.relativePath path
  if Tree.isAbsolute relative || relative.contains 0 then .ok (.empty .notFound)
  else match Tree.openAt root.privileged relative root.place with
    | .error e => .ok (.empty (StaticFile.openErrorStatus e))
    | .ok place =>
      match place.node with
      | .file _ content => do
        let type ← contentType relative
        .ok (.ofFile ⟨content, 0, true⟩ content.length type)
      | _ => .ok (.text .forbidden StaticFile.forbiddenText)

def routed (docs : DocumentRoot) (body path : Bytes) : Route → Checked Response
  | .staticFile => serve docs path
  | route => .ok (route.respond docs body path)

def respond (r : Request) (docs : DocumentRoot) (body path : Bytes) : Checked Response := do
  let response ← routed docs body path (Route.resolve r.knownMethod r.isApi path)
  .ok (response.withKeepAlive r.keepAlive)

/-! ## One request -/

/-- The answer to the first pending request, whose head of `headSize` bytes is read already. -/
def answer (s : Service) (memory : Memory) (st : Storage) (pending : Bytes) (request : Request)
    (headSize : Nat) : Checked (Storage.Outcome (Option Response)) :=
  match s.requests.total? headSize request.contentLength with
  | none => .ok ⟨.error .payloadTooLarge, st⟩
  | some total =>
    if pending.length < total then do
      let reserved ← reserve memory st total
      .ok ⟨reserved.result.map fun _ => none, reserved.storage⟩
    else do
      let body ← body request (← slice pending headSize total)
      match ← resolvePath request with
      | .error e => .ok ⟨.error e, st⟩
      | .ok path =>
        let response ← respond request s.docs body path.normal
        let st ← consume st total
        .ok ⟨.ok (some response), st⟩

def process (s : Service) (memory : Memory) (st : Storage) :
    Checked (Storage.Outcome (Option Response)) := do
  let pending ← pending st
  match indexOf? blankLine pending with
  | none => .ok ⟨.ok none, st⟩
  | some terminator =>
    let headSize ← sum terminator 4
    match ← parse s.requests (← sliceTo pending (← sum terminator 2)) with
    | .error e => .ok ⟨.error e, st⟩
    | .ok request => answer s memory st pending request headSize

end HttpServer.Checked
