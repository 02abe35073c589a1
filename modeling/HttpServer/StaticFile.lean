import HttpServer.Response
import HttpServer.Tree
/-!
# Static files

Files are served from a directory, the document root. A path is walked from there, whatever it looks
like; that it stays below the root is the work of normalization. What cannot be opened becomes a
status, and what is no regular file is forbidden.
-/
namespace HttpServer

/-- The directory that files are served from. -/
structure DocumentRoot where
  place : Tree.Place
  /-- Whether permissions do not matter. -/
  privileged : Bool := false

namespace StaticFile

def unknownType : Bytes := .ofString "application/octet-stream"

/-- The types by the end of the file name behind the last dot. -/
def knownTypes : List (Bytes × Bytes) :=
  [(.ofString "html", .ofString "text/html"),
   (.ofString "css", .ofString "text/css"),
   (.ofString "js", .ofString "application/javascript"),
   (.ofString "png", .ofString "image/png")]

/-- What stands behind the last byte `b` of `s`, if there is one. -/
def afterLast? (b : UInt8) (s : Bytes) : Option Bytes :=
  if s.contains b then some (s.reverse.takeWhile (· != b)).reverse else none

/-- The type of a file, by the extension of the last segment of its path. -/
def contentType (path : Bytes) : Bytes :=
  let segment := (afterLast? Bytes.slash path).getD path
  match afterLast? 0x2e segment with
  | none => unknownType
  | some extension => (knownTypes.lookup extension).getD unknownType

def openErrorStatus : SystemError → Status
  | .noEntry | .notDirectory => .notFound
  | .accessDenied => .forbidden
  | _ => .internalServerError

/-- The text for a directory and any other node that is no regular file. -/
def forbiddenText : Bytes := .ofString "Forbidden file route"

def indexFile : Bytes := .ofString "index.html"

/-- The path below the root that a normal path asks for. -/
def relativePath (path : Bytes) : Bytes :=
  let relative := match path with
    | [] => []
    | b :: rest => if b = Bytes.slash then rest else path
  if relative = [] then indexFile else relative

/-- The response with the file at a path, or the reason why there is none. A relative path that
starts with a slash or holds the byte zero names nothing. -/
def serve (root : DocumentRoot) (path : Bytes) : Response :=
  let relative := relativePath path
  if Tree.isAbsolute relative || relative.contains 0 then .empty .notFound
  else match Tree.openAt root.privileged relative root.place with
    | .error e => .empty (openErrorStatus e)
    | .ok place =>
      match place.node with
      | .file _ content => .ofFile ⟨content, 0, true⟩ content.length (contentType relative)
      | _ => .text .forbidden forbiddenText

/-- A path is answered with nothing but a status, with the text for what is no regular file, or with
a whole file. -/
theorem serve_cases (root : DocumentRoot) (path : Bytes) :
    (∃ status, serve root path = .empty status) ∨
      serve root path = .text .forbidden forbiddenText ∨
      ∃ content, serve root path =
        .ofFile ⟨content, 0, true⟩ content.length (contentType (relativePath path)) := by
  unfold serve
  simp only
  split
  · exact .inl ⟨_, rfl⟩
  · split
    · exact .inl ⟨_, rfl⟩
    · split
      · exact .inr (.inr ⟨_, rfl⟩)
      · exact .inr (.inl rfl)

def openRoot (path : Bytes) (start : Tree.Place) : Except IoError DocumentRoot :=
  if path.contains 0 then .error .zeroInName
  else match Tree.openDirectory false path start with
    | .error e => .error (.system e)
    | .ok place => .ok ⟨place, false⟩

end StaticFile
end HttpServer
