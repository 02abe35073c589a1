import HttpServer.Bytes
/-!
# Request methods

The methods that the routes distinguish. A request keeps the token that the client sent; a token
that is none of these still parses and is answered by the routes.
-/
namespace HttpServer

/-- A request method with a meaning for the routes. -/
inductive Method where
  | get
  | head
  | post
  | put
  | patch
  | delete
  | options
  deriving DecidableEq

namespace Method

def all : List Method := [get, head, post, put, patch, delete, options]

def token : Method → Bytes
  | get => .ofString "GET"
  | head => .ofString "HEAD"
  | post => .ofString "POST"
  | put => .ofString "PUT"
  | patch => .ofString "PATCH"
  | delete => .ofString "DELETE"
  | options => .ofString "OPTIONS"

/-- The method of a token, which is matched byte for byte. -/
def ofToken? (s : Bytes) : Option Method := all.find? (·.token == s)

/-- A request with this method carries no body. -/
def forbidsBody : Method → Bool
  | get | head => true
  | _ => false

end Method
end HttpServer
