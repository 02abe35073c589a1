import HttpServer.Request
/-!
# What a request line asks for

The method and the path can be read off the first bytes of a request before anything is known about the
rest of it. The method ends at the first space, and the path stands between the spaces behind it and the
next space. Nothing is decoded here: a path belongs to the API by the bytes that were sent.
-/
namespace HttpServer.Request

def methodOf (s : Bytes) : Bytes := s.takeWhile (· != Bytes.sp)

/-- The path at the start of a request, as it was sent. -/
def pathOf (s : Bytes) : Bytes :=
  (Bytes.skipSpaces (s.dropWhile (· != Bytes.sp))).takeWhile (· != Bytes.sp)

def IsApiPath (path : Bytes) : Prop := path = apiRoot ∨ apiRoot ++ [Bytes.slash] <+: path

end HttpServer.Request
