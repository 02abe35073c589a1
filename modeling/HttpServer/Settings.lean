import HttpServer.Address
import HttpServer.IoError
/-!
# Settings

The program is set up by four variables of its environment: the address to listen at, the directory
to serve, the number of connections that may wait to be accepted, and the level of the log. A
variable that is not set, or whose value is no text, has its default. The first value at fault, in
this order, decides the error.
-/
namespace HttpServer

inductive LogLevel where
  | error
  | warn
  | info
  | debug
  | trace
  deriving DecidableEq

namespace LogLevel

/-- All levels, each of which logs more than the one before it. -/
def all : List LogLevel := [error, warn, info, debug, trace]

def name : LogLevel → String
  | error => "ERROR"
  | warn => "WARN"
  | info => "INFO"
  | debug => "DEBUG"
  | trace => "TRACE"

/-- The level with this number, counted from one; a plus sign may stand before the number. -/
def ofNumber? (s : Bytes) : Option LogLevel :=
  let digits := match s with
    | 0x2b :: rest => rest
    | _ => s
  if digits = [] then none
  else match Decimal.read? digits with
    | none | some 0 => none
    | some (n + 1) => all[n]?

/-- The level with this number, or with this name up to case. -/
def ofBytes? (s : Bytes) : Option LogLevel :=
  match ofNumber? s with
  | some level => some level
  | none => all.find? fun level => Bytes.eqIgnoreCase s (.ofString level.name)

end LogLevel

/-! ## Whole numbers -/

/-- Why a text is not a number of a given range. -/
inductive NumberFault where
  | empty
  | invalidDigit
  | tooLarge
  | tooSmall
  deriving DecidableEq

def NumberFault.text : NumberFault → String
  | empty => "cannot parse integer from empty string"
  | invalidDigit => "invalid digit found in string"
  | tooLarge => "number too large to fit in target type"
  | tooSmall => "number too small to fit in target type"

/-- The number written by digits, at most `limit`. The first byte that is no digit, or that makes
the number too large, decides the fault. -/
def readMagnitude (limit : Nat) (excess : NumberFault) (digits : Bytes) : Except NumberFault Nat :=
  if digits = [] then .error .invalidDigit
  else digits.foldlM (fun n b =>
    if !Decimal.isDigit b then .error .invalidDigit
    else if limit < n * 10 + Decimal.digitValue b then .error excess
    else .ok (n * 10 + Decimal.digitValue b)) 0

/-- The number of 32 bits written by a text, with or without a sign. -/
def readInt32 (s : Bytes) : Except NumberFault Int :=
  match s with
  | [] => .error .empty
  | 0x2d :: digits => (readMagnitude 0x80000000 .tooSmall digits).map fun n => -(n : Int)
  | 0x2b :: digits => (readMagnitude 0x7fffffff .tooLarge digits).map Int.ofNat
  | digits => (readMagnitude 0x7fffffff .tooLarge digits).map Int.ofNat

/-! ## The settings -/

structure Settings where
  address : SocketAddress
  root : Bytes
  backlog : Int
  logLevel : LogLevel
  deriving DecidableEq

namespace Settings

/-- The values of the variables that are set. -/
abbrev Environment := String → Option Bytes

def addressVariable : String := "ROOTED_ADDR"
def rootVariable : String := "ROOTED_ROOT"
def backlogVariable : String := "ROOTED_BACKLOG"
def logVariable : String := "ROOTED_LOG"

/-- The value of a variable, or its default if it is not set to a text. -/
def valueOf (env : Environment) (name default : String) : Bytes :=
  match env name with
  | none => .ofString default
  | some value => if Bytes.isUtf8 value then value else .ofString default

def addressFault : String := "invalid socket address syntax"

def levelFault : String :=
  "error parsing level: expected one of \"error\", \"warn\", \"info\", \"debug\", \"trace\", "
    ++ "or a number 1-5"

def load (env : Environment) : Except IoError Settings :=
  match SocketAddress.ofBytes? (valueOf env addressVariable "0.0.0.0:8080") with
  | none => .error (.badSetting addressVariable addressFault)
  | some address =>
    match readInt32 (valueOf env backlogVariable "1024") with
    | .error fault => .error (.badSetting backlogVariable fault.text)
    | .ok backlog =>
      match LogLevel.ofBytes? (valueOf env logVariable "info") with
      | none => .error (.badSetting logVariable levelFault)
      | some logLevel =>
        .ok { address, root := valueOf env rootVariable "public", backlog, logLevel }

end Settings
end HttpServer
