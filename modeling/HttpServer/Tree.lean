import HttpServer.Bytes
import HttpServer.IoError
/-!
# File trees

The files that a server can reach form a tree of named nodes. A path is walked component by
component from a place in the tree: `.` stays, `..` goes to the parent, a name goes down, and a link
is replaced by the path it holds. The walk ends at a place or at the first obstacle.

A place is a node together with the nodes above it, so that a walk can leave the directory it
started from; nothing stands above the top.
-/
namespace HttpServer.Tree

/-- A node of a file tree. Who is not privileged can open what is readable and pass through what is
searchable. A directory may have one of the two permissions without the other. -/
inductive Node where
  | file (readable : Bool) (content : Bytes)
  | directory (readable : Bool) (entries : List (Bytes × Node)) (searchable : Bool := readable)
  | link (target : Bytes)
  | pipe (readable : Bool)
  | socket (readable : Bool)

/-- A node and the nodes above it, the nearest first. -/
structure Place where
  node : Node
  /-- The directories on the way to the top. -/
  above : List Node := []

namespace Place

/-- The place above; the top is above itself. -/
def parent (p : Place) : Place :=
  match p.above with
  | [] => p
  | up :: above => ⟨up, above⟩

def top (p : Place) : Place :=
  match p.above.getLast? with
  | none => p
  | some node => ⟨node, []⟩

/-- The place of an entry of this directory. -/
def child (p : Place) (node : Node) : Place := ⟨node, p.node :: p.above⟩

end Place

/-! ## Walking -/

def maxName : Nat := 255

/-- The length from which on a path is too long. -/
def maxPath : Nat := 4096

def maxLinks : Nat := 40

/-- The components of a path. A slash at the end asks for a directory, as a component for the
current directory does. -/
def components (path : Bytes) : List Bytes :=
  let names := (Bytes.pieces Bytes.slash path).filter (· != [])
  if path.getLast? = some Bytes.slash then names ++ [[0x2e]] else names

def isAbsolute (path : Bytes) : Bool := path.head? == some Bytes.slash

/-- How far a walk comes without following a link. -/
inductive Reach where
  | arrived (place : Place)
  /-- The directory `place` has a link as the next component, and `rest` is behind it. -/
  | detour (target : Bytes) (rest : List Bytes) (place : Place)

/-- The walk along the components up to its end or to the first link. Passing through a directory
needs the permission to search it, even to stay there or to leave it, and the permission is asked
before the name is looked at. -/
def descend (privileged : Bool) : List Bytes → Place → Except SystemError Reach
  | [], place => .ok (.arrived place)
  | name :: rest, place =>
    match place.node with
    | .directory _ entries searchable =>
      if !(searchable || privileged) then .error .accessDenied
      else if name = [0x2e] then descend privileged rest place
      else if name = [0x2e, 0x2e] then descend privileged rest place.parent
      else if name.length > maxName then .error .nameTooLong
      else match entries.lookup name with
        | none => .error .noEntry
        | some (.link target) => .ok (.detour target rest place)
        | some node => descend privileged rest (place.child node)
    | _ => .error .notDirectory

/-- The walk along the components, with `links` links left to follow. -/
def follow (privileged : Bool) : Nat → List Bytes → Place → Except SystemError Place
  | links, names, place =>
    match descend privileged names place with
    | .error e => .error e
    | .ok (.arrived place) => .ok place
    | .ok (.detour target rest place) =>
      match links with
      | 0 => .error .linkLoop
      | links + 1 =>
        follow privileged links (components target ++ rest)
          (if isAbsolute target then place.top else place)

def walk (privileged : Bool) (path : Bytes) (start : Place) : Except SystemError Place :=
  if path.length ≥ maxPath then .error .nameTooLong
  else if path = [] then .error .noEntry
  else follow privileged maxLinks (components path) (if isAbsolute path then start.top else start)

/-! ## Opening -/

def Node.readable : Node → Bool
  | .file readable _ | .directory readable _ _ | .pipe readable | .socket readable => readable
  | .link _ => true

/-- The place where a path leads, opened for reading. A socket cannot be opened. -/
def openAt (privileged : Bool) (path : Bytes) (start : Place) : Except SystemError Place :=
  match walk privileged path start with
  | .error e => .error e
  | .ok place =>
    if !(place.node.readable || privileged) then .error .accessDenied
    else match place.node with
      | .socket _ => .error .noDevice
      | _ => .ok place

/-- The directory where a path leads, opened for reading. That it is no directory counts before a
missing permission. -/
def openDirectory (privileged : Bool) (path : Bytes) (start : Place) : Except SystemError Place :=
  match walk privileged path start with
  | .error e => .error e
  | .ok place =>
    match place.node with
    | .directory readable _ _ =>
      if readable || privileged then .ok place else .error .accessDenied
    | _ => .error .notDirectory

end HttpServer.Tree
