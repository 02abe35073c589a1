import HttpServer.Request
import HttpServer.StaticFile
/-!
# Routes

| method | API | path | route |
|---|---|---|---|
| `GET` | yes | `/` | `root` |
| `POST` | yes | `/echo` | `echo` |
| `GET`, `POST` | yes | other | `notFound` |
| other | yes | any | `unsupportedMethod` |
| `GET` | no | any | `staticFile` |
| other | no | any | `unsupportedMethod` |

Only the route `staticFile` looks at files.
-/
namespace HttpServer

inductive Route where
  | root
  | echo
  | notFound
  | unsupportedMethod
  | staticFile
  deriving DecidableEq

namespace Route

/-- The route of a request with this normal path. -/
def resolve (method : Option Method) (isApi : Bool) (path : Bytes) : Route :=
  match method, isApi with
  | some .get, true => if path = [Bytes.slash] then root else notFound
  | some .post, true => if path = .ofString "/echo" then echo else notFound
  | some .get, false => staticFile
  | _, _ => unsupportedMethod

def helloText : Bytes := .ofString "Hello"
def notFoundText : Bytes := .ofString "Route Not Found"
def unsupportedMethodText : Bytes := .ofString "This request method is currently unsupported"

def respond (docs : DocumentRoot) (body path : Bytes) : Route → Response
  | root => .text .ok helloText
  | echo => .text .ok body
  | notFound => .text .notFound notFoundText
  | unsupportedMethod => .text .methodNotAllowed unsupportedMethodText
  | staticFile => StaticFile.serve docs path

end Route

/-- The response to a request with this body and normal path. The connection stays open if the
request wants it to. -/
def Request.respond (r : Request) (docs : DocumentRoot) (body path : Bytes) : Response :=
  ((Route.resolve r.knownMethod r.isApi path).respond docs body path).withKeepAlive r.keepAlive

end HttpServer
