import HttpServer.IoError
import HttpServer.Status
/-!
# Rejections

The reasons why a request is refused before any route sees it. Every reason has one status. The
response to it has no body and ends the connection.
-/
namespace HttpServer

/-- A reason to refuse a request. -/
inductive Rejection where
  | badRequestLine
  /-- A field line has no colon, no name or no value. -/
  | badHeaderSyntax
  | invalidVersion
  /-- The content length is no number, too large, or given twice. -/
  | invalidContentLength
  | bodyNotAllowed
  /-- No field line follows the request line. -/
  | missingRequiredHeaders
  | unsupportedTransferEncoding
  /-- The method has no meaning here; no request is refused for it, the routes answer it. -/
  | unsupportedMethod
  | headerTooLarge
  | tooManyHeaders
  | payloadTooLarge
  | requestTimeout
  /-- The path is malformed or rises above the root. -/
  | badRequestPath
  | outOfMemory
  | serviceUnavailable
  | io (kind : IoKind)
  deriving DecidableEq

namespace Rejection

/-- The rejections other than a failed transport. -/
def named : List Rejection :=
  [badRequestLine, badHeaderSyntax, invalidVersion, invalidContentLength, bodyNotAllowed,
   missingRequiredHeaders, unsupportedTransferEncoding, unsupportedMethod, headerTooLarge,
   tooManyHeaders, payloadTooLarge, requestTimeout, badRequestPath, outOfMemory,
   serviceUnavailable]

def name : Rejection → String
  | badRequestLine => "BadRequestLine"
  | badHeaderSyntax => "BadHeaderSyntax"
  | invalidVersion => "InvalidVersion"
  | invalidContentLength => "InvalidContentLength"
  | bodyNotAllowed => "BodyNotAllowed"
  | missingRequiredHeaders => "MissingRequiredHeaders"
  | unsupportedTransferEncoding => "UnsupportedTransferEncoding"
  | unsupportedMethod => "UnsupportedMethod"
  | headerTooLarge => "HeaderTooLarge"
  | tooManyHeaders => "TooManyHeaders"
  | payloadTooLarge => "PayloadTooLarge"
  | requestTimeout => "RequestTimeout"
  | badRequestPath => "BadRequestPath"
  | outOfMemory => "OutOfMemory"
  | serviceUnavailable => "ServiceUnavailable"
  | io _ => "Io"

/-- The text of the reason: its name, or the kind of the failed transport. -/
def message : Rejection → String
  | io kind => kind.name
  | r => r.name

def status : Rejection → Status
  | badRequestLine | badHeaderSyntax | invalidContentLength | bodyNotAllowed
  | missingRequiredHeaders | tooManyHeaders | badRequestPath => .badRequest
  | invalidVersion => .httpVersionNotSupported
  | unsupportedTransferEncoding => .notImplemented
  | unsupportedMethod => .methodNotAllowed
  | headerTooLarge => .requestHeaderFieldsTooLarge
  | payloadTooLarge => .payloadTooLarge
  | requestTimeout => .requestTimeout
  | outOfMemory => .internalServerError
  | serviceUnavailable | io _ => .serviceUnavailable

/-- The whole response: it has no body and announces the end of the connection. -/
def wire (r : Rejection) : Bytes :=
  r.status.line ++ Bytes.ofString "Content-Length: 0\r\nConnection: close\r\n\r\n"

/-- The reason that a failed read gives: running out of time is a timeout of the request. -/
def ofIo : IoKind → Rejection
  | .timedOut => requestTimeout
  | kind => io kind

end Rejection
end HttpServer
