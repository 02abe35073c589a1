import HttpServer.Decimal
/-!
# Status codes

The status codes that routing, file look-up and rejection produce, with their status lines.
-/
namespace HttpServer

inductive Status where
  | ok
  | badRequest
  | forbidden
  | notFound
  | methodNotAllowed
  | requestTimeout
  | payloadTooLarge
  | requestHeaderFieldsTooLarge
  | internalServerError
  | notImplemented
  | serviceUnavailable
  | httpVersionNotSupported
  deriving DecidableEq

namespace Status

def code : Status → Nat
  | ok => 200
  | badRequest => 400
  | forbidden => 403
  | notFound => 404
  | methodNotAllowed => 405
  | requestTimeout => 408
  | payloadTooLarge => 413
  | requestHeaderFieldsTooLarge => 431
  | internalServerError => 500
  | notImplemented => 501
  | serviceUnavailable => 503
  | httpVersionNotSupported => 505

def reason : Status → String
  | ok => "OK"
  | badRequest => "Bad Request"
  | forbidden => "Forbidden"
  | notFound => "Not Found"
  | methodNotAllowed => "Method Not Allowed"
  | requestTimeout => "Request Timeout"
  | payloadTooLarge => "Payload Too Large"
  | requestHeaderFieldsTooLarge => "Request Header Fields Too Large"
  | internalServerError => "Internal Server Error"
  | notImplemented => "Not Implemented"
  | serviceUnavailable => "Service Unavailable"
  | httpVersionNotSupported => "HTTP Version Not Supported"

/-- The first line of a response, with its end. -/
def line (s : Status) : Bytes :=
  Bytes.ofString "HTTP/1.1 " ++ Decimal.write s.code ++ [Bytes.sp] ++ Bytes.ofString s.reason
    ++ Bytes.crlf

end Status
end HttpServer
