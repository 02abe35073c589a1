/-!
# Transport and file errors

Reading, writing and opening can fail for reasons that lie outside the server. An error has a kind,
which is all that decides about it, and a text for people. Errors of the operating system have a
number too.
-/
namespace HttpServer

inductive IoKind where
  | notFound
  | permissionDenied
  | connectionRefused
  | connectionReset
  | hostUnreachable
  | networkUnreachable
  | connectionAborted
  | notConnected
  | addrInUse
  | addrNotAvailable
  | networkDown
  | brokenPipe
  | alreadyExists
  | wouldBlock
  | notADirectory
  | isADirectory
  | directoryNotEmpty
  | readOnlyFilesystem
  | filesystemLoop
  | staleNetworkFileHandle
  | invalidInput
  | invalidData
  | timedOut
  | writeZero
  | storageFull
  | notSeekable
  | quotaExceeded
  | fileTooLarge
  | resourceBusy
  | executableFileBusy
  | deadlock
  | crossesDevices
  | tooManyLinks
  | invalidFilename
  | argumentListTooLong
  | interrupted
  | unsupported
  | unexpectedEof
  | outOfMemory
  | inProgress
  | other
  | uncategorized
  deriving DecidableEq

namespace IoKind

def all : List IoKind :=
  [notFound, permissionDenied, connectionRefused, connectionReset, hostUnreachable,
   networkUnreachable, connectionAborted, notConnected, addrInUse, addrNotAvailable,
   networkDown, brokenPipe, alreadyExists, wouldBlock, notADirectory, isADirectory,
   directoryNotEmpty, readOnlyFilesystem, filesystemLoop, staleNetworkFileHandle,
   invalidInput, invalidData, timedOut, writeZero, storageFull, notSeekable, quotaExceeded,
   fileTooLarge, resourceBusy, executableFileBusy, deadlock, crossesDevices, tooManyLinks,
   invalidFilename, argumentListTooLong, interrupted, unsupported, unexpectedEof, outOfMemory,
   inProgress, other, uncategorized]

def name : IoKind → String
  | notFound => "NotFound"
  | permissionDenied => "PermissionDenied"
  | connectionRefused => "ConnectionRefused"
  | connectionReset => "ConnectionReset"
  | hostUnreachable => "HostUnreachable"
  | networkUnreachable => "NetworkUnreachable"
  | connectionAborted => "ConnectionAborted"
  | notConnected => "NotConnected"
  | addrInUse => "AddrInUse"
  | addrNotAvailable => "AddrNotAvailable"
  | networkDown => "NetworkDown"
  | brokenPipe => "BrokenPipe"
  | alreadyExists => "AlreadyExists"
  | wouldBlock => "WouldBlock"
  | notADirectory => "NotADirectory"
  | isADirectory => "IsADirectory"
  | directoryNotEmpty => "DirectoryNotEmpty"
  | readOnlyFilesystem => "ReadOnlyFilesystem"
  | filesystemLoop => "FilesystemLoop"
  | staleNetworkFileHandle => "StaleNetworkFileHandle"
  | invalidInput => "InvalidInput"
  | invalidData => "InvalidData"
  | timedOut => "TimedOut"
  | writeZero => "WriteZero"
  | storageFull => "StorageFull"
  | notSeekable => "NotSeekable"
  | quotaExceeded => "QuotaExceeded"
  | fileTooLarge => "FileTooLarge"
  | resourceBusy => "ResourceBusy"
  | executableFileBusy => "ExecutableFileBusy"
  | deadlock => "Deadlock"
  | crossesDevices => "CrossesDevices"
  | tooManyLinks => "TooManyLinks"
  | invalidFilename => "InvalidFilename"
  | argumentListTooLong => "ArgumentListTooLong"
  | interrupted => "Interrupted"
  | unsupported => "Unsupported"
  | unexpectedEof => "UnexpectedEof"
  | outOfMemory => "OutOfMemory"
  | inProgress => "InProgress"
  | other => "Other"
  | uncategorized => "Uncategorized"

def ofName? (s : String) : Option IoKind := all.find? (·.name == s)

end IoKind

/-- An error that the operating system reports. -/
inductive SystemError where
  | noEntry
  /-- The file cannot be opened at all, as a socket. -/
  | noDevice
  | badDescriptor
  | accessDenied
  | notDirectory
  | invalidArgument
  | brokenPipe
  | nameTooLong
  | linkLoop
  | addressInUse
  | addressNotAvailable
  | networkUnreachable
  | connectionReset
  deriving DecidableEq

namespace SystemError

def code : SystemError → Nat
  | noEntry => 2
  | noDevice => 6
  | badDescriptor => 9
  | accessDenied => 13
  | notDirectory => 20
  | invalidArgument => 22
  | brokenPipe => 32
  | nameTooLong => 36
  | linkLoop => 40
  | addressInUse => 98
  | addressNotAvailable => 99
  | networkUnreachable => 101
  | connectionReset => 104

def text : SystemError → String
  | noEntry => "No such file or directory"
  | noDevice => "No such device or address"
  | badDescriptor => "Bad file descriptor"
  | accessDenied => "Permission denied"
  | notDirectory => "Not a directory"
  | invalidArgument => "Invalid argument"
  | brokenPipe => "Broken pipe"
  | nameTooLong => "File name too long"
  | linkLoop => "Too many levels of symbolic links"
  | addressInUse => "Address already in use"
  | addressNotAvailable => "Cannot assign requested address"
  | networkUnreachable => "Network is unreachable"
  | connectionReset => "Connection reset by peer"

/-- The kind of the error; two of them have no kind of their own. -/
def kind : SystemError → IoKind
  | noEntry => .notFound
  | noDevice => .uncategorized
  | badDescriptor => .uncategorized
  | accessDenied => .permissionDenied
  | notDirectory => .notADirectory
  | invalidArgument => .invalidInput
  | brokenPipe => .brokenPipe
  | nameTooLong => .invalidFilename
  | linkLoop => .filesystemLoop
  | addressInUse => .addrInUse
  | addressNotAvailable => .addrNotAvailable
  | networkUnreachable => .networkUnreachable
  | connectionReset => .connectionReset

end SystemError

/-- A failure of reading, writing or opening, by its cause. -/
inductive IoError where
  | system (e : SystemError)
  | transport (kind : IoKind) (text : String)
  /-- A write took nothing. -/
  | writeZero
  | writeTimeout
  /-- A file gave out after `sent` of the `size` bytes announced for it. -/
  | fileEnded (sent size : Nat)
  | zeroInName
  | badSetting (setting reason : String)
  deriving DecidableEq

namespace IoError

/-- The kind of the error. -/
def kind : IoError → IoKind
  | system e => e.kind
  | transport kind _ => kind
  | writeZero => .writeZero
  | writeTimeout => .timedOut
  | fileEnded .. => .unexpectedEof
  | zeroInName => .invalidInput
  | badSetting .. => .invalidInput

def message : IoError → String
  | system e => e.text ++ " (os error " ++ toString e.code ++ ")"
  | transport _ text => text
  | writeZero => "write zero"
  | writeTimeout => "write timeout"
  | fileEnded sent size =>
    "file ended after " ++ toString sent ++ " of " ++ toString size ++ " bytes"
  | zeroInName => "file name contained an unexpected NUL byte"
  | badSetting setting reason => setting ++ ": " ++ reason

/-- The text between double quotes, with backslashes before quotes and backslashes. -/
def quoted (s : String) : String :=
  "\"" ++ String.ofList (s.toList.flatMap fun c =>
    if c = '"' ∨ c = '\\' then ['\\', c] else [c]) ++ "\""

/-- The form with all that is known of the error, with which the program ends. -/
def report : IoError → String
  | system e => "Os \x7b code: " ++ toString e.code ++ ", kind: " ++ e.kind.name ++ ", message: "
      ++ quoted e.text ++ " \x7d"
  | zeroInName => "Error \x7b kind: InvalidInput, message: " ++ quoted zeroInName.message ++ " \x7d"
  | writeZero => "Kind(WriteZero)"
  | e => "Custom \x7b kind: " ++ e.kind.name ++ ", error: " ++ quoted e.message ++ " \x7d"

end IoError
end HttpServer
