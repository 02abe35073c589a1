/-!
# Limits

The bounds on what one client may use. Their defaults are small on purpose.
-/
namespace HttpServer

/-- Bounds on one request and on the buffer that receives it. -/
structure RequestLimits where
  initialSize : Nat := 4096
  /-- Bytes that a request may have, head and body together. -/
  maxSize : Nat := 16384
  maxFields : Nat := 100

/-- Bounds on how a response is sent. -/
structure ResponseLimits where
  /-- Bytes of a file that are handed over at once. -/
  fileChunk : Nat := 65536

/-- Bounds on how many connections are served and kept waiting. -/
structure ServerLimits where
  workers : Nat := 100
  maxPending : Nat := 250
  /-- Handlers that refuse what does not fit into the queue; with none it is closed unanswered. -/
  refusers : Nat := 1

end HttpServer
