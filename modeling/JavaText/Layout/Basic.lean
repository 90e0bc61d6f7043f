import JavaText.Layout.Orphan

/-!
# Layouts

The layout of a node: texts, line breaks, comments, deeper parts, and parts that a decorator acts
around. It is settled before anything is printed, so no rule of layout can depend on what a decorator
does or on the text so far. A node's rule knows the layouts of the node's children and sets each child as
a statement or member with the orphans before it, as an expression, or as a type.
-/

namespace JavaText

/-- An item of a layout. -/
inductive Doc where
  | write (s : String)
  | newline
  /-- A comment; `orphan` tells whether it is an orphan put back in place. -/
  | comment (orphan : Bool) (c : Comment)
  /-- A part one level deeper. -/
  | indented (body : List Doc)
  /-- A node offered to the decorator, and its own layout. -/
  | decorated (role : Role) (node : Node) (body : List Doc)
  /-- The layout cannot be completed. -/
  | abort (e : PrintError)

namespace Doc

/-- A text that ends its line. -/
def line (s : String) : List Doc := [.write s, .newline]

/-- The layouts with a text between each two. -/
def separated (sep : String) (ds : List (List Doc)) : List Doc := [Doc.write sep].intercalate ds

/-- The orphans between the node at `path` and the sibling before it. -/
def leading (ix : ParentIndex) (path : Path) (n : Node) : List Doc :=
  match ix.parentOf path with
  | none => []
  | some parent =>
    let es := parent.merged
    match es.findIdx? (Entry.isChild (path.getLastD 0)) with
    | none => [.abort (.orphanedChild n.name n.range parent.name parent.range)]
    | some i =>
      ((leadingRun es i).slice es).map fun (e, j) =>
        match e.node with
        | .comment c => .comment true c
        | other => .abort (.commentRun n.name n.range other.name j i)

/-- The orphans after the last child of the node. -/
def trailing (n : Node) : List Doc :=
  ((trailingRun n.merged).slice n.merged).filterMap fun (e, _) =>
    match e.node with
    | .comment c => some (.comment true c)
    | _ => none

end Doc

/-- The layout of a node. -/
structure Layout where
  {kind : Kind}
  tree : Tree kind
  /-- The orphans between the node and its previous sibling. -/
  before : List Doc
  /-- The layout by the node's own rule, without `before`. -/
  body : List Doc
  /-- Of a type or a declared variable: the type inside all array layers, in a type position. -/
  element : List Doc
  /-- Of a type or a declared variable: the brackets of the array layers. -/
  brackets : List Doc
  /-- Of a statement that is only an expression: the expression. -/
  bare : Option (List Doc)

/-- The kinds before which orphans are looked for. -/
def Kind.takesOrphans (k : Kind) : Bool :=
  k == .importDecl || k == .enumConstant || k == .switchEntry || (Place.any .member).admits k ||
    (Place.any .stmt).admits k

/-- The kinds whose own rule sets the orphans before the node. For the others it is up to the rule
of the parent. -/
def Kind.leadsItself (k : Kind) : Bool :=
  k == .switchEntry || (Place.any .stmt).admits k ||
    ((Place.any .member).admits k && !Category.member.hides k)

namespace Layout

def decorated (role : Role) (l : Layout) : List Doc := [.decorated role (.tree l.tree) l.body]

/-- The node with the orphans before it. -/
def led (l : Layout) : List Doc := l.before ++ l.body

/-- The node when it is printed for itself. -/
def alone (l : Layout) : List Doc := if l.kind.leadsItself then l.led else l.body

/-- In a type position, where class types are decorated. -/
def type (l : Layout) : List Doc :=
  if l.kind = .classType then l.decorated .typeReference else l.body

/-- In an expression position, where annotations are decorated. -/
def expr (l : Layout) : List Doc :=
  if l.kind = .annotationExpr then l.decorated .annotationUse else l.body

def typeReferences (sep : String) (ls : List Layout) : List Doc :=
  Doc.separated sep (ls.map (decorated .typeReference))

/-- Type arguments in angle brackets; nothing if there are none. -/
def typeArguments (ls : Option (List Layout)) : List Doc :=
  match ls with
  | none | some [] => []
  | some (l :: ls) => [.write "<"] ++ Doc.separated ", " ((l :: ls).map type) ++ [.write ">"]

/-- Annotations on lines of their own. -/
def annotationLines (ls : List Layout) : List Doc :=
  ls.flatMap fun l => l.decorated .annotationUse ++ [.newline]

/-- Annotations in a line, each with a blank behind it, and with a blank before the first if `gap`. -/
def annotations (gap : Bool) (ls : List Layout) : List Doc :=
  if ls.isEmpty then []
  else (if gap then [.write " "] else []) ++
    ls.flatMap fun l => l.decorated .annotationUse ++ [.write " "]

def modifiers (m : Modifiers) : List Doc :=
  if m.isEmpty then [] else [.write (" ".intercalate m.keywords), .write " "]

/-- Arguments of a call, in parentheses. -/
def arguments (ls : List Layout) : List Doc :=
  [.write "("] ++ Doc.separated ", " (ls.map expr) ++ [.write ")"]

def parameters (ls : List Layout) : List Doc :=
  Doc.separated ", " (ls.map (decorated .parameter))

/-- The members of a body, each between two line breaks. -/
def members (ls : List Layout) : List Doc := ls.flatMap fun l => [.newline] ++ l.led ++ [.newline]

/-- Statements, each on lines of its own. -/
def statements (ls : List Layout) : List Doc := ls.flatMap fun l => l.led ++ [.newline]

/-- Declared variables behind the type that they share; array layers go with each name. -/
def declarators (ls : List Layout) : List Doc :=
  ((ls.head?.map element).getD []) ++ [.write " "] ++ Doc.separated ", " (ls.map body)

end Layout

end JavaText
