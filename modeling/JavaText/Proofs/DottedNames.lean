import JavaText.Proofs.PlainText

/-!
# Dotted names

A name is a chain of identifiers, kept from the last one back to the first; its dotted form joins them
by points, and a dotted form is cut at the points to build the chain. The two are each other's inverses,
as far as identifiers without points go, and the dotted form is what is printed where comments are not
(`Tree.dotted_roundTrip`).
-/

namespace JavaText

namespace Tree

/-- A name is an identifier, or one behind a name that qualifies it. -/
theorem name_induction {P : Tree .name → Prop} (simple : ∀ d s, P (.ofRow .name d (none, s, ())))
    (qualified : ∀ d q s, P q → P (.ofRow .name d (some q.child, s, ()))) (t : Tree .name) : P t := by
  have hany : ∀ {k : Kind} (t : Tree k) (hk : k = .name), P (hk ▸ t) := by
    intro k t
    induction t using Tree.of_trees with
    | step t ih =>
      rintro rfl
      rw [← t.ofRow_row] at ih ⊢
      revert ih
      obtain ⟨qualifier, s, -⟩ := t.row
      intro ih
      cases qualifier with
      | none => exact simple t.data s
      | some q =>
        obtain ⟨hk, q⟩ := q
        obtain rfl : Kind.name = _ := eq_of_beq hk
        exact qualified t.data q s (ih ⟨_, q⟩ (List.mem_singleton_self _) rfl)
  exact hany t rfl

def identifiersRule : Rule (List String)
  | _, .name, _, (none, s, ()) => [s]
  | _, .name, _, (some ids, s, ()) => ids ++ [s]
  | _, _, _, _ => []

/-- The identifiers of a name, the qualifiers first. -/
def identifiers (t : Tree .name) : List String := t.fold identifiersRule []

theorem fold_identifiersRule (t : Tree .name) (path : Path) :
    t.fold identifiersRule path = t.identifiers := by
  have hpaths : ∀ path path', t.fold identifiersRule path = t.fold identifiersRule path' := by
    induction t using name_induction with
    | simple d s => exact fun _ _ => rfl
    | qualified d q s ih =>
      intro path path'
      exact congrArg (· ++ [s]) (ih (path ++ [0]) (path' ++ [0]))
  exact hpaths path []

theorem identifiers_qualified (d : NodeData) (q : Tree .name) (s : String) :
    (ofRow .name d (some q.child, s, ())).identifiers = q.identifiers ++ [s] :=
  congrArg (· ++ [s]) (q.fold_identifiersRule [0])

theorem identifiers_ne_nil (t : Tree .name) : t.identifiers ≠ [] := by
  induction t using name_induction with
  | simple d s => exact List.cons_ne_nil _ _
  | qualified d q s _ =>
    rw [identifiers_qualified]
    exact List.concat_ne_nil _ _

theorem fold_dottedRule (t : Tree .name) (path : Path) :
    t.fold dottedRule path = ".".intercalate t.identifiers := by
  induction t using name_induction generalizing path with
  | simple d s => exact String.intercalate_singleton.symm
  | qualified d q s ih =>
    rw [identifiers_qualified, String.intercalate_append_of_ne_nil q.identifiers_ne_nil
      (List.cons_ne_nil _ _), ← ih (path ++ [0]), String.intercalate_singleton]
    rfl

theorem dotted_qualified (d : NodeData) (q : Tree .name) (s : String) :
    (ofRow .name d (some q.child, s, ())).dotted = q.dotted ++ "." ++ s := by
  have hqualifier : q.fold dottedRule [0] = q.dotted := by
    rw [dotted, fold_dottedRule, fold_dottedRule]
  exact congrArg (· ++ "." ++ s) hqualifier

end Tree

namespace Build

theorem identifiers_nameFrom (q : Tree .name) (parts : List String) :
    (nameFrom (some q) parts).identifiers = q.identifiers ++ parts := by
  induction parts generalizing q with
  | nil => exact (List.append_nil _).symm
  | cons s parts ih =>
    have hqualified : (qualified (some q) s).identifiers = q.identifiers ++ [s] :=
      Tree.identifiers_qualified {} q s
    rw [nameFrom, ih, hqualified, List.append_assoc]
    rfl

/-- To build a name is to cut its dotted form at the points. -/
theorem identifiers_name (s : String) :
    (name s).identifiers = (s.toList.splitOn '.').map String.ofList := by
  obtain ⟨part, parts, hparts⟩ := List.exists_cons_of_ne_nil (List.splitOn_ne_nil '.' s.toList)
  rw [name, hparts, List.map_cons, nameFrom, identifiers_nameFrom]
  rfl

theorem dotted_name (s : String) : (name s).dotted = s := by
  have hparts : ((s.toList.splitOn '.').map String.ofList).map String.toList = s.toList.splitOn '.' := by
    rw [List.map_map]
    exact (List.map_congr_left fun cs _ => String.toList_ofList).trans (List.map_id _)
  have hchars : (name s).dotted.toList = ['.'].intercalate (s.toList.splitOn '.') := by
    rw [Tree.dotted, Tree.fold_dottedRule, identifiers_name, String.toList_intercalate, hparts]
    rfl
  rw [← String.toList_inj, hchars, List.intercalate_splitOn]

theorem identifiers_dotted {t : Tree .name} (h : ∀ id ∈ t.identifiers, '.' ∉ id.toList) :
    (name t.dotted).identifiers = t.identifiers := by
  have hne : t.identifiers.map String.toList ≠ [] := by simpa using t.identifiers_ne_nil
  have hparts : t.dotted.toList.splitOn '.' = t.identifiers.map String.toList := by
    rw [Tree.dotted, Tree.fold_dottedRule, String.toList_intercalate]
    refine List.splitOn_intercalate '.' ?_ hne
    intro cs hcs
    obtain ⟨id, hid, rfl⟩ := List.mem_map.mp hcs
    exact h id hid
  rw [identifiers_name, hparts, List.map_map]
  exact (List.map_congr_left fun id _ => String.ofList_toList).trans (List.map_id _)

end Build

/-- Without comments a name is printed in its dotted form, wherever it stands. -/
theorem Tree.adds_dotted {p : Printer} (hp : p.options.printComments = false) (t : Tree .name)
    (ix : ParentIndex) (path : Path) : p.Adds (t.layout ix path).body t.dotted := by
  have hcomments : ∀ orphan (cs : List Comment), p.Adds (cs.map (.comment orphan)) "" := by
    intro orphan cs
    induction cs with
    | nil => exact .nil
    | cons c cs ih => exact (Printer.Adds.comment_off hp orphan c).append ih
  have hattached : ∀ d, p.Adds (Layout.attached .name d) "" := by
    intro d
    unfold Layout.attached
    cases d.comment with
    | none => exact .nil
    | some c => exact .comment_off hp false c
  have htrailing : ∀ n, p.Adds (Doc.trailing n) "" := by
    intro n
    rw [Doc.trailing_eq]
    exact hcomments true _
  induction t using name_induction generalizing path with
  | simple d s =>
    have hbody := (hattached d).append
      ((Printer.Adds.nil.append (.write s)).append (htrailing (.tree (ofRow .name d (none, s, ())))))
    rw [String.empty_append, String.empty_append, String.append_empty] at hbody
    exact hbody
  | qualified d q s ih =>
    have hbody := (hattached d).append (((((ih (path ++ [0])).append (.write ".")).append (.write s))).append
      (htrailing (.tree (ofRow .name d (some q.child, s, ())))))
    rw [String.empty_append, String.append_empty, ← dotted_qualified d] at hbody
    exact hbody

/-- Dotted forms, names and printed names say the same: a dotted form is that of the name built from it,
without comments a name is printed in its dotted form, and the name built from the dotted form of a name
whose identifiers hold no points has the same identifiers. -/
theorem Tree.dotted_roundTrip :
    (∀ s, (Build.name s).dotted = s) ∧
      (∀ (t : Tree .name) (options : PrintOptions) (decorator : Decorator) (s : PrintState),
        (Printer.print ⟨options.withoutComments, decorator⟩ (.tree t) s).1 = .ok t.dotted) ∧
      ∀ t : Tree .name, (∀ id ∈ t.identifiers, '.' ∉ id.toList) →
        (Build.name t.dotted).identifiers = t.identifiers := by
  refine ⟨Build.dotted_name, ?_, fun t ht => Build.identifiers_dotted ht⟩
  intro t options decorator s
  obtain ⟨ix, hix, -⟩ := ParentIndex.build_ok (.tree t)
  refine Printer.Adds.print hix ?_ s
  rw [Node.layout_tree rfl]
  exact t.adds_dotted rfl ix []

/-- A name with comments at every link. -/
def Tree.remarkedName : Tree .name :=
  let c : Comment := { kind := .line, content := "c" }
  let util := (Build.qualified (some ((Build.qualified none "java").commented c)) "util").withOrphans [c]
  (Build.qualified (some util) "List").withOrphans [c, c]

theorem Tree.dotted_roundTrip_remarkedName :
    (∀ id ∈ remarkedName.identifiers, '.' ∉ id.toList) ∧
      (Build.name remarkedName.dotted).identifiers = ["java", "util", "List"] ∧
      (Printer.print ⟨PrintOptions.withoutComments {}, .plain⟩ (.tree remarkedName) (Printer.init {})).1 =
        .ok "java.util.List" := by
  obtain ⟨-, hprint, hchain⟩ := dotted_roundTrip
  have hpoints : ∀ id ∈ remarkedName.identifiers, '.' ∉ id.toList := by decide
  refine ⟨hpoints, hchain remarkedName hpoints, ?_⟩
  exact (hprint remarkedName {} .plain _).trans rfl

end JavaText
