import HttpServer.Tree
/-!
# Looking up segments

In a tree without links a walk is a look-up: one segment after another names an entry of the
directory reached so far. It leads to a node or comes to a first obstacle. Who is privileged may
search every directory.
-/
namespace HttpServer.Tree

inductive LinkFree : Node → Prop where
  | file (readable : Bool) (content : Bytes) : LinkFree (.file readable content)
  | directory (readable : Bool) (entries : List (Bytes × Node)) (searchable : Bool)
      (h : ∀ entry ∈ entries, LinkFree entry.2) : LinkFree (.directory readable entries searchable)
  | pipe (readable : Bool) : LinkFree (.pipe readable)
  | socket (readable : Bool) : LinkFree (.socket readable)

/-- The segments lead from one node to another, through directories that may be searched. Whether
these may be read does not matter. -/
inductive Leads (privileged : Bool) : Node → List Bytes → Node → Prop where
  | here (node : Node) : Leads privileged node [] node
  | down {readable searchable : Bool} {entries : List (Bytes × Node)} {segment : Bytes}
      {rest : List Bytes} {child node : Node} (may : searchable = true ∨ privileged = true)
      (short : segment.length ≤ maxName) (entry : entries.lookup segment = some child)
      (way : Leads privileged child rest node) :
      Leads privileged (.directory readable entries searchable) (segment :: rest) node

/-- The first obstacle on the way along segments. -/
inductive Obstacle (privileged : Bool) : Node → List Bytes → SystemError → Prop where
  | notDirectory {node : Node} {segment : Bytes} {rest : List Bytes}
      (h : ∀ readable entries searchable, node ≠ .directory readable entries searchable) :
      Obstacle privileged node (segment :: rest) .notDirectory
  /-- The directory may not be searched, though perhaps read. -/
  | denied {readable : Bool} {entries : List (Bytes × Node)} {segment : Bytes} {rest : List Bytes}
      (h : privileged = false) :
      Obstacle privileged (.directory readable entries false) (segment :: rest) .accessDenied
  | tooLong {readable searchable : Bool} {entries : List (Bytes × Node)} {segment : Bytes}
      {rest : List Bytes} (may : searchable = true ∨ privileged = true)
      (h : maxName < segment.length) :
      Obstacle privileged (.directory readable entries searchable) (segment :: rest) .nameTooLong
  | missing {readable searchable : Bool} {entries : List (Bytes × Node)} {segment : Bytes}
      {rest : List Bytes} (may : searchable = true ∨ privileged = true)
      (short : segment.length ≤ maxName) (h : entries.lookup segment = none) :
      Obstacle privileged (.directory readable entries searchable) (segment :: rest) .noEntry
  | further {readable searchable : Bool} {entries : List (Bytes × Node)} {segment : Bytes}
      {rest : List Bytes} {child : Node} {e : SystemError}
      (may : searchable = true ∨ privileged = true) (short : segment.length ≤ maxName)
      (entry : entries.lookup segment = some child) (h : Obstacle privileged child rest e) :
      Obstacle privileged (.directory readable entries searchable) (segment :: rest) e

end HttpServer.Tree
