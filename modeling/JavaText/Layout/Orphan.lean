import Std.Data.TreeMap
import JavaText.Print.Basic
import JavaText.Tree.Node

/-!
# Orphan comments among their siblings

The children of a node and its orphan comments merged into source order, and the runs of comments in
that list: the one before an entry reaches back to the nearest entry that is no comment, and the
trailing run is what follows the last such entry. The siblings of a node are found through the parents
of all nodes below a root, by path. The index of a pass is built once, before anything is printed;
outside a pass it is empty, and then no node has a parent.
-/

namespace JavaText

/-- An entry of the merged list: a child with its number, or an orphan comment. -/
inductive Entry where
  | child (i : Nat) (n : Node)
  | orphan (c : Comment)

namespace Entry

def node : Entry → Node
  | .child _ n => n
  | .orphan c => .comment c

def pos (e : Entry) : UInt32 := e.node.range.pos

def isComment (e : Entry) : Bool := e.node.isComment

/-- Whether the entry is child number `i`. -/
def isChild (i : Nat) : Entry → Bool
  | .child j _ => i == j
  | .orphan _ => false

/-- Sorts by start position; entries that start together keep their order. Each entry goes behind those
that start earlier, the last entry first. -/
def sort (es : List Entry) : List Entry :=
  -- by insertion: `List.mergeSort` does not compute where a proof evaluates a layout
  es.foldr (fun e fs => fs.takeWhile (·.pos < e.pos) ++ e :: fs.dropWhile (·.pos < e.pos)) []

end Entry

/-- A stretch of a list: the positions from `start` up to, not including, `stop`. -/
structure Span where
  start : Nat
  stop : Nat
deriving DecidableEq, Repr

namespace Node

/-- The children of the node, numbered. -/
def childEntries (n : Node) : List Entry := n.children.zipIdx.map fun (c, i) => .child i c

def orphanEntries (n : Node) : List Entry := n.orphans.map .orphan

/-- Children and orphans in the order in which they start; of those that start together, children
come first. -/
def merged (n : Node) : List Entry := Entry.sort (n.childEntries ++ n.orphanEntries)

end Node

/-- The comments just before position `i`. -/
def leadingRun (es : List Entry) (i : Nat) : Span :=
  ⟨i - ((es.take i).reverse.takeWhile Entry.isComment).length, i⟩

/-- The comments at the end. -/
def trailingRun (es : List Entry) : Span :=
  ⟨es.length - (es.reverse.takeWhile Entry.isComment).length, es.length⟩

/-- The entries of a stretch, each with its position. -/
def Span.slice {α : Type} (s : Span) (xs : List α) : List (α × Nat) :=
  (xs.zipIdx.take s.stop).drop s.start

/-- The parents of the nodes below a root. -/
structure ParentIndex where
  parents : Std.TreeMap Path Node := ∅

namespace ParentIndex

def empty : ParentIndex := {}

/-- Records the parent of a visited node; a node cannot have two. -/
def insert (ix : ParentIndex) (v : Visit) : Except PrintError ParentIndex :=
  match v.parent with
  | none => .ok ix
  | some parent =>
    match ix.parents[v.path]? with
    | some first =>
      .error (.duplicateParent v.node.name v.node.range first.name parent.name)
    | none => .ok ⟨ix.parents.insert v.path parent⟩

/-- The index of every node below `root`. -/
def build (root : Node) : Except PrintError ParentIndex := root.walk.foldlM insert empty

def parentOf (ix : ParentIndex) (path : Path) : Option Node := ix.parents[path]?

/-- The number of nodes that have a parent. -/
def size (ix : ParentIndex) : Nat := ix.parents.size

def isEmpty (ix : ParentIndex) : Bool := ix.parents.isEmpty

end ParentIndex

end JavaText
