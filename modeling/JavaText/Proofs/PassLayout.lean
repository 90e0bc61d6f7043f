import JavaText.Proofs.Parents
import JavaText.Proofs.RuleCongruence

/-!
# The layout of a pass

Under the index of its root, a layout is made of the steps that rules take and of comments: whatever is
looked up before a node of the tree turns out to be orphans. `Doc.Laid` describes the layouts made so,
and the layout of every pass is one of them (`Node.laid`); what a pass does is then proved by induction
on how its layout was made.
-/

namespace JavaText

/-- The layouts made of the steps of rules and of comments, where `Q` holds of each part offered to the
decorator. No item says that the layout cannot be completed, and levels open only at the start of a
line. -/
inductive Doc.Laid (Q : List Doc → Prop) : List Doc → Prop
  | nil : Laid Q []
  | append {a b : List Doc} (ha : Laid Q a) (hb : Laid Q b) : Laid Q (a ++ b)
  | write (t : String) : Laid Q [.write t]
  | newline : Laid Q [.newline]
  | comment (orphan : Bool) (c : Comment) : Laid Q [.comment orphan c]
  | deeper {a : List Doc} (ha : Laid Q a) : Laid Q [.newline, .indented a]
  | decorated {a : List Doc} (role : Role) (n : Node) (hq : Q a) (ha : Laid Q a) :
    Laid Q [.decorated role n a]

namespace Doc.Laid

variable {Q : List Doc → Prop} {D : Layout → Prop}

theorem orphans (cs : List Comment) : Laid Q (Doc.orphans cs) := by
  induction cs with
  | nil => exact .nil
  | cons c cs ih => exact .append (.comment true c) ih

theorem congruence (hD : ∀ l, D l → l.kind.isDecorated = true → Q l.body) :
    Doc.Congruence (fun l _ => D l) fun ds _ => Laid Q ds where
  nil := .nil
  append := .append
  write := .write
  newline := .newline
  deeper := .deeper
  decorated role hk hl hbody := .decorated role _ (hD _ hl hk) hbody

end Doc.Laid

/-- What the layout of every node of a tree is to satisfy, in view of the layouts of its children. -/
def Doc.LaidAt (Q : List Doc → Prop) (D : Layout → Prop) (ix : ParentIndex) (p : Path)
    (u : AnyTree) : Prop :=
  let row := u.2.fields.fold (Layout.ofNode ix) p 0
  Row.Rel (Layout.Rel (fun l _ => D l) fun ds _ => Laid Q ds) u.1.fields row row →
    D (u.2.layout ix p)

/-- The tree that is printed for a node. -/
def Node.top? : Node → Option AnyTree
  | .tree t => some ⟨_, t⟩
  | .entry _ e => some ⟨_, e.tree⟩
  | .comment _ => none

section
variable {Q : List Doc → Prop} {D : Layout → Prop}
  (hD : ∀ l, D l → l.kind.isDecorated = true → Q l.body)
include hD

theorem Tree.laid {ix : ParentIndex} (p : Path) {k : Kind} (t : Tree k)
    (hbefore : ∀ r u, AnyTree.at? ⟨k, t⟩ r = some u →
      ∃ cs, Doc.leading ix (p ++ r) u.node = Doc.orphans cs)
    (hwhole : ∀ r u, AnyTree.at? ⟨k, t⟩ r = some u → Doc.LaidAt Q D ix (p ++ r) u) :
    Layout.Rel (fun l _ => D l) (fun ds _ => Doc.Laid Q ds) (.only k) (t.layout ix p)
      (t.layout ix p) := by
  refine t.layout_rel (Doc.Laid.congruence hD) .comment (fun r u hu => ?_) hwhole
  obtain ⟨cs, hcs⟩ := hbefore r u hu
  rw [hcs]
  exact .orphans cs

/-- The layout of a node is made of the steps of rules and of comments if only orphans are set before
the nodes below it. -/
theorem Node.laid_at {ix : ParentIndex} (p : Path) {n : Node}
    (hbefore : ∀ t, n.top? = some t → ∀ r u, t.at? r = some u →
      ∃ cs, Doc.leading ix (p ++ r) u.node = Doc.orphans cs)
    (hwhole : ∀ t, n.top? = some t → ∀ r u, t.at? r = some u → Doc.LaidAt Q D ix (p ++ r) u) :
    Doc.Laid Q (n.layout ix p) := by
  have h := Doc.Laid.congruence hD
  cases n with
  | tree t => exact (t.laid hD p (hbefore _ rfl) (hwhole _ rfl)).alone h
  | entry c e =>
    have hl := e.tree.laid hD p (hbefore _ rfl) (hwhole _ rfl)
    cases c with
    | expr => exact hl.expr h
    | member | stmt => exact hl.led h
    | typeDecl | type => exact hl.body
  | comment c => exact .comment false c

end

/-- Under the index of a root, only orphans are set before the nodes that are visited and those below
them. -/
theorem ParentIndex.leading_visit {root : Node} {ix : ParentIndex} (hix : build root = .ok ix) {v : Visit}
    (hv : v ∈ root.walk) {t : AnyTree} (ht : v.node.top? = some t) (r : Path) (u : AnyTree)
    (hu : t.at? r = some u) : ∃ cs, Doc.leading ix (v.path ++ r) u.node = Doc.orphans cs := by
  have hchildless (h : root.walk = [⟨[], none, root⟩]) :
      ∃ cs, Doc.leading ix (v.path ++ r) u.node = Doc.orphans cs := by
    obtain ⟨ix', hix', hnone⟩ := build_childless h
    obtain rfl : ix' = ix := by simpa [hix'] using hix
    exact ⟨[], leading_eq_nil hnone _ _⟩
  cases root with
  | tree root =>
    obtain ⟨ix', hix', hof⟩ := build_tree root
    obtain rfl : ix' = ix := by simpa [hix'] using hix
    obtain ⟨r₀, u₀, hpath, hu₀, hnode⟩ := root.at?_of_mem_visits [] none hv
    rw [hnode] at ht
    obtain rfl : u₀ = t := Option.some.inj ht
    rw [hpath, List.nil_append]
    exact hof.leading (AnyTree.at?_append hu₀ hu) u.node
  | entry | comment => exact hchildless rfl

/-- The layout of a pass is made of the steps of rules and of comments. -/
theorem Node.laid {Q : List Doc → Prop} {D : Layout → Prop}
    (hD : ∀ l, D l → l.kind.isDecorated = true → Q l.body) {root : Node} {ix : ParentIndex}
    (hix : ParentIndex.build root = .ok ix)
    (hwhole : ∀ t, root.top? = some t → ∀ r u, t.at? r = some u → Doc.LaidAt Q D ix r u) :
    Doc.Laid Q (root.layout ix []) :=
  Node.laid_at hD [] (fun _ ht r u hu => ParentIndex.leading_visit hix root.mem_walk ht r u hu) hwhole

/-- The layout of a pass, with nothing asked of the parts offered to the decorator. -/
theorem Node.laid_any {root : Node} {ix : ParentIndex} (hix : ParentIndex.build root = .ok ix) :
    Doc.Laid (fun _ => True) (root.layout ix []) :=
  Node.laid (D := fun _ => True) (fun _ _ _ => trivial) hix fun _ _ _ _ _ _ => trivial

/-- The layout of any node that is visited, where it stands below the root. -/
theorem Node.laid_visit {root : Node} {ix : ParentIndex} (hix : ParentIndex.build root = .ok ix)
    {v : Visit} (hv : v ∈ root.walk) : Doc.Laid (fun _ => True) (v.node.layout ix v.path) :=
  Node.laid_at (D := fun _ => True) (fun _ _ _ => trivial) v.path
    (fun _ ht r u hu => ParentIndex.leading_visit hix hv ht r u hu) fun _ _ _ _ _ _ => trivial

/-- The layout of a node outside a pass. -/
theorem Node.laid_empty (n : Node) (p : Path) : Doc.Laid (fun _ => True) (n.layout .empty p) :=
  Node.laid_at (D := fun _ => True) (fun _ _ _ => trivial) p
    (fun _ _ _ _ _ => ⟨[], ParentIndex.leading_eq_nil ParentIndex.parentOf_empty _ _⟩)
    fun _ _ _ _ _ _ => trivial

end JavaText
