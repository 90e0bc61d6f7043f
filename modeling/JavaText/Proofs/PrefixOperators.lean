import JavaText.Proofs.PlainText

/-!
# Operators before an operand

Nothing is written between the signs of operators that stand one inside the other, so all that shows in
the text is the row of single signs: `++x` is the increment of `x` as well as `x` with two plus signs.
Two rows of operators have the same text exactly if they consist of the same single signs, and a row can
be told from its text exactly if it has no increment or decrement in it and nothing that looks like one
(`Printer.print_prefixed_eq_iff`).
-/

namespace JavaText

namespace UnaryOp

/-- The operators of one sign each that look the same. -/
def singles : UnaryOp → List UnaryOp
  | .preIncrement => [.plus, .plus]
  | .preDecrement => [.minus, .minus]
  | op => [op]

def doubles : List UnaryOp := [.preIncrement, .preDecrement]

/-- The operators of one sign, with their signs. -/
def marks : List (UnaryOp × Char) :=
  [(.plus, '+'), (.minus, '-'), (.logicalComplement, '!'), (.bitwiseComplement, '~')]

def mark (op : UnaryOp) : Char := (marks.lookup op).getD ' '

def ofMark (c : Char) : UnaryOp := ((marks.find? fun m => m.2 == c).map Prod.fst).getD .plus

theorem ofMark_mark {op op' : UnaryOp} (hop : op.isTrailing = false) (h : op' ∈ op.singles) :
    ofMark op'.mark = op' := by
  revert op'
  cases op with
  | postIncrement | postDecrement => cases hop
  | _ => decide

theorem toList_sign {op : UnaryOp} (h : op.isTrailing = false) :
    op.sign.toList = op.singles.map mark := by
  cases op with
  | postIncrement | postDecrement => cases h
  | _ => rfl

theorem singles_eq {op : UnaryOp} (h : op ∉ doubles) : op.singles = [op] := by
  cases op with
  | preIncrement | preDecrement => exact absurd (by decide) h
  | _ => rfl

def spread (ops : List UnaryOp) : List UnaryOp := ops.flatMap singles

theorem spread_append (ops ops' : List UnaryOp) : spread (ops ++ ops') = spread ops ++ spread ops' :=
  List.flatMap_append

theorem toList_join_sign {ops : List UnaryOp} (h : ∀ op ∈ ops, op.isTrailing = false) :
    (String.join (ops.map sign)).toList = (spread ops).map mark := by
  rw [String.toList_join, List.flatMap_map, spread, List.map_flatMap]
  exact List.flatMap_congr fun op hop => toList_sign (h op hop)

/-- The signs say which operators of one sign they are. -/
theorem map_ofMark_spread {ops : List UnaryOp} (h : ∀ op ∈ ops, op.isTrailing = false) :
    ((spread ops).map mark).map ofMark = spread ops := by
  rw [List.map_map]
  refine (List.map_congr_left fun op' hop' => ?_).trans (List.map_id _)
  obtain ⟨op, hop, hmem⟩ := List.mem_flatMap.mp hop'
  exact ofMark_mark (h op hop) hmem

theorem join_sign_inj {ops ops' : List UnaryOp} (h : ∀ op ∈ ops, op.isTrailing = false)
    (h' : ∀ op ∈ ops', op.isTrailing = false) :
    String.join (ops.map sign) = String.join (ops'.map sign) ↔ spread ops = spread ops' := by
  rw [← String.toList_inj, toList_join_sign h, toList_join_sign h']
  refine ⟨fun heq => ?_, fun heq => by rw [heq]⟩
  rw [← map_ofMark_spread h, heq, map_ofMark_spread h']

/-- No operator of two signs is in the row, and nothing that looks like one. -/
def Clear (ops : List UnaryOp) : Prop := ∀ op ∈ doubles, op ∉ ops ∧ ¬ op.singles <:+: ops

instance (ops : List UnaryOp) : Decidable (Clear ops) := inferInstanceAs (Decidable (∀ op ∈ doubles, _))

theorem spread_singles {op : UnaryOp} (h : op ∈ doubles) (a b : List UnaryOp) :
    spread (a ++ op.singles ++ b) = spread (a ++ [op] ++ b) := by
  have hsame : ∀ op ∈ doubles, spread op.singles = spread [op] := by decide
  simp only [spread_append, hsame op h]

theorem singles_ne {op : UnaryOp} (h : op ∈ doubles) (a b : List UnaryOp) :
    a ++ op.singles ++ b ≠ a ++ [op] ++ b := by
  have htwo : ∀ op ∈ doubles, op.singles.length = 2 := by decide
  intro heq
  have hlength := congrArg List.length heq
  simp only [List.length_append, htwo op h, List.length_singleton] at hlength
  omega

theorem spread_eq_self {ops : List UnaryOp} (h : ∀ op ∈ doubles, op ∉ ops) : spread ops = ops := by
  refine (List.flatMap_congr fun op hop => ?_).trans (List.flatMap_singleton' ops)
  exact singles_eq fun hdouble => h op hdouble hop

/-- A clear row is the only one with its signs. -/
theorem Clear.eq_of_spread {ops ops' : List UnaryOp} (h : Clear ops)
    (hsame : spread ops' = spread ops) : ops' = ops := by
  have hops : spread ops = ops := spread_eq_self fun op hop => (h op hop).1
  have hops' : spread ops' = ops' := by
    refine spread_eq_self fun op hop hmem => (h op hop).2 ?_
    -- an operator of two signs would show in the clear row
    obtain ⟨a, b, rfl⟩ := List.append_of_mem hmem
    rw [← hops, ← hsame, spread_append, spread, spread, List.flatMap_cons, ← List.append_assoc]
    exact List.infix_append _ _ _
  rw [← hops, ← hops', hsame]

/-- For a row that is not clear there is another one with the same signs. -/
theorem Clear.of_unique {ops : List UnaryOp} (hops : ∀ op ∈ ops, op.isTrailing = false)
    (h : ∀ ops', (∀ op ∈ ops', op.isTrailing = false) → spread ops' = spread ops → ops' = ops) :
    Clear ops := by
  have hleading : ∀ op ∈ doubles, (∀ op' ∈ [op], op'.isTrailing = false) ∧
      ∀ op' ∈ op.singles, op'.isTrailing = false := by decide
  intro op hop
  refine ⟨fun hmem => ?_, ?_⟩
  · obtain ⟨a, b, rfl⟩ := List.append_of_mem hmem
    rw [List.append_cons] at hops h
    rw [List.forall_mem_append, List.forall_mem_append] at hops
    have hops' : ∀ op' ∈ a ++ op.singles ++ b, op'.isTrailing = false :=
      List.forall_mem_append.mpr ⟨List.forall_mem_append.mpr ⟨hops.1.1, (hleading op hop).2⟩, hops.2⟩
    exact singles_ne hop a b (h _ hops' (spread_singles hop a b))
  · rintro ⟨a, b, rfl⟩
    rw [List.forall_mem_append, List.forall_mem_append] at hops
    have hops' : ∀ op' ∈ a ++ [op] ++ b, op'.isTrailing = false :=
      List.forall_mem_append.mpr ⟨List.forall_mem_append.mpr ⟨hops.1.1, (hleading op hop).1⟩, hops.2⟩
    exact singles_ne hop a b (h _ hops' (spread_singles hop a b).symm).symm

end UnaryOp

theorem Kind.admits_unary : (Place.any .expr).admits .unary = true := rfl

theorem Kind.admits_nameExpr : (Place.any .expr).admits .nameExpr = true := rfl

/-- A name with operators before it, the outermost first. -/
def Expr.prefixed (ops : List UnaryOp) (x : String) : Expr :=
  ops.foldr (fun op e => (Build.unary op e).inside Kind.admits_unary)
    ((Build.nameExpr x).inside Kind.admits_nameExpr)

theorem Expr.adds_prefixed (p : Printer) {ops : List UnaryOp} (h : ∀ op ∈ ops, op.isTrailing = false)
    (x : String) (ix : ParentIndex) (path : Path) :
    p.Adds ((Expr.prefixed ops x).tree.layout ix path).expr (String.join (ops.map UnaryOp.sign) ++ x) := by
  induction ops generalizing path with
  | nil =>
    have hname : ((Expr.prefixed [] x).tree.layout ix path).expr =
        [.write x] ++ Doc.trailing (.tree (Build.nameExpr x)) := rfl
    have htrailing : Doc.trailing (.tree (Build.nameExpr x)) = [] := by
      rw [Doc.trailing_eq, Node.orphansAtEnd_eq_nil _ rfl]
      rfl
    rw [hname, htrailing, List.map_nil, String.join_nil, String.empty_append]
    exact .write x
  | cons op ops ih =>
    rw [List.forall_mem_cons] at h
    have hunary : ((Expr.prefixed (op :: ops) x).tree.layout ix path).expr =
        Layout.Rule.unary op ((Expr.prefixed ops x).tree.layout ix (path ++ [0])) := rfl
    rw [hunary, Layout.Rule.unary, h.1, List.map_cons, String.join_cons, String.append_assoc]
    exact (Printer.Adds.write op.sign).append (ih h.2 _)

theorem Printer.print_prefixed (p : Printer) {ops : List UnaryOp}
    (h : ∀ op ∈ ops, op.isTrailing = false) (x : String) (s : PrintState) :
    (p.print (.tree (Expr.prefixed ops x).tree) s).1 =
      .ok (String.join (ops.map UnaryOp.sign) ++ x) := by
  obtain ⟨ix, hix, -⟩ := ParentIndex.build_ok (.tree (Expr.prefixed ops x).tree)
  have hadds := Expr.adds_prefixed p h x ix []
  refine Printer.Adds.print hix ?_ s
  cases ops <;> exact hadds

/-- Two rows of operators before a name are printed alike if and only if they consist of the same
operators of one sign, an increment being two plus signs and a decrement two minus signs. So a row
can be told from its text if and only if it has no increment or decrement in it, no two plus signs and
no two minus signs side by side. -/
theorem Printer.print_prefixed_eq_iff (options : PrintOptions) (x : String) (s : PrintState)
    {ops : List UnaryOp} (h : ∀ op ∈ ops, op.isTrailing = false) :
    let text := fun ops => (Printer.print ⟨options, .plain⟩ (.tree (Expr.prefixed ops x).tree) s).1
    (∀ ops', (∀ op ∈ ops', op.isTrailing = false) →
        (text ops' = text ops ↔ UnaryOp.spread ops' = UnaryOp.spread ops)) ∧
      ((∀ ops', (∀ op ∈ ops', op.isTrailing = false) → text ops' = text ops → ops' = ops) ↔
        UnaryOp.Clear ops) := by
  intro text
  have hiff : ∀ ops', (∀ op ∈ ops', op.isTrailing = false) →
      (text ops' = text ops ↔ UnaryOp.spread ops' = UnaryOp.spread ops) := by
    intro ops' h'
    simp only [text]
    rw [print_prefixed _ h', print_prefixed _ h, ← UnaryOp.join_sign_inj h' h, Except.ok.injEq,
      String.append_left_inj]
  refine ⟨hiff, fun hunique => ?_, fun hclear ops' h' htext => ?_⟩
  · exact .of_unique h fun ops' h' hsame => hunique ops' h' ((hiff ops' h').mpr hsame)
  · exact hclear.eq_of_spread ((hiff ops' h').mp htext)

theorem Printer.print_prefixed_minusPlus :
    let p : Printer := {}
    UnaryOp.Clear [.minus, .plus] ∧
      ∀ ops, (∀ op ∈ ops, op.isTrailing = false) →
        (p.print (.tree (Expr.prefixed ops "x").tree) p.init).1 =
          (p.print (.tree (Expr.prefixed [.minus, .plus] "x").tree) p.init).1 → ops = [.minus, .plus] := by
  have hclear : UnaryOp.Clear [.minus, .plus] := by decide
  have hleading : ∀ op ∈ [UnaryOp.minus, .plus], op.isTrailing = false := by decide
  exact ⟨hclear, (print_prefixed_eq_iff {} "x" _ hleading).2.mpr hclear⟩

/-- Two plus signs before a name look like its increment. -/
theorem Printer.print_prefixed_plusPlus :
    let p : Printer := {}
    [UnaryOp.plus, .plus] ≠ [.preIncrement] ∧
      (p.print (.tree (Expr.prefixed [.plus, .plus] "x").tree) p.init).1 = .ok "++x" ∧
      (p.print (.tree (Expr.prefixed [.preIncrement] "x").tree) p.init).1 = .ok "++x" := by
  have hjoin : String.join ["+", "+"] ++ "x" = "++x" ∧ String.join ["++"] ++ "x" = "++x" := by decide
  intro p
  refine ⟨by decide, ?_, ?_⟩
  · exact (print_prefixed p (by decide) "x" p.init).trans (congrArg Except.ok hjoin.1)
  · exact (print_prefixed p (by decide) "x" p.init).trans (congrArg Except.ok hjoin.2)

end JavaText
