import HttpServer.Address
import HttpServer.IoError
/-!
# Hosts

A server runs on a machine, and of that machine it needs two things: addresses to listen at, and a
way for its clients to reach it. A machine without any network interface has neither a route nor
addresses of its own; then every IPv4 address can be bound, since none is known to be foreign, but
nothing can connect.
-/
namespace HttpServer

/-- The machine, as far as its network is concerned. -/
structure Host where
  hasLoopback : Bool
  deriving DecidableEq

namespace Host

def isolated : Host := ⟨false⟩

/-- A machine that reaches itself and nothing else. -/
def withLoopback : Host := ⟨true⟩

def connect (h : Host) : Except IoError Unit :=
  if h.hasLoopback then .ok () else .error (.system .networkUnreachable)

/-- Whether an address belongs to the machine, or stands for all its addresses. -/
def owns (h : Host) : IpAddress → Bool
  | .v4 octets =>
    if h.hasLoopback then octets.head? == some 127 || octets == [0, 0, 0, 0] else true
  | .v6 groups =>
    groups == [0, 0, 0, 0, 0, 0, 0, 0]
      || (h.hasLoopback && groups == [0, 0, 0, 0, 0, 0, 0, 1])

/-- What becomes of listening at an address while others, `held`, are listened at. -/
def bind (h : Host) (held : List SocketAddress) (address : SocketAddress) :
    Except IoError SocketAddress :=
  if !h.owns address.ip then .error (.system .addressNotAvailable)
  else if held.contains address then .error (.system .addressInUse)
  else .ok address

end Host
end HttpServer
