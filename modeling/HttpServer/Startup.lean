import HttpServer.Host
import HttpServer.Server
import HttpServer.Settings
/-!
# Starting

The program reads its settings, opens the directory to serve and listens at its address, in this
order, and the first that fails ends it.
-/
namespace HttpServer

structure Startup where
  settings : Settings
  docs : DocumentRoot
  address : SocketAddress

namespace Startup

/-- The start of the program in a directory of a machine. -/
def start (host : Host) (directory : Tree.Place) (env : Settings.Environment) :
    Except IoError Startup :=
  match Settings.load env with
  | .error e => .error e
  | .ok settings =>
    match StaticFile.openRoot settings.root directory with
    | .error e => .error e
    | .ok docs =>
      match host.bind [] settings.address with
      | .error e => .error e
      | .ok address => .ok { settings, docs, address }

/-- The server of a program that has started. All its bounds are the default ones. -/
def server (p : Startup) : Server := { service := { docs := p.docs }, limits := {} }

/-- What the program writes when it cannot start. -/
def complaint (e : IoError) : String := "Error: " ++ e.report ++ "\n"

end Startup
end HttpServer
