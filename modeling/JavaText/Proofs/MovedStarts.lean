import JavaText.Proofs.Conduct
import JavaText.Proofs.Coverage
import JavaText.Proofs.OtherData
import JavaText.Proofs.Script

/-!
# Only the order of starts matters

Where things start matters to printing only through the order in which they start. If all starts in a
tree are moved so that their order stays, and orphans that start at different positions are listed in
another order, every node has the same runs of orphans before its children and at its end
(`Node.merged_moved`). The two layouts then have scripts that differ at most in the comments and nodes
that they name (`Op.Alike`), and so print the same text.
-/

namespace JavaText

/-- On these positions the map is strictly increasing. -/
def Increasing (f : UInt32 → UInt32) (ps : List UInt32) : Prop :=
  ∀ p ∈ ps, ∀ q ∈ ps, p < q → f p < f q

section
variable (f : UInt32 → UInt32)

/-- The comment starts where `f` moves it, and ends anywhere. -/
structure Comment.Moved (c c' : Comment) : Prop where
  kind : c'.kind = c.kind
  content : c'.content = c.content
  start : c'.range.pos = f c.range.pos

/-- The node and its comments start where `f` moves them. Orphans of which no two start together may
be listed in any order. -/
structure NodeData.Moved (d d' : NodeData) : Prop where
  start : d'.range.pos = f d.range.pos
  comment : Option.Rel (Comment.Moved f) d.comment d'.comment
  orphans : ∃ cs : List Comment,
    (cs = d.orphans ∨ cs.Perm d.orphans ∧ (d.orphans.map fun c => c.range.pos).Nodup) ∧
    List.Forall₂ (Comment.Moved f) cs d'.orphans

/-- Every node of the tree is moved by the data that `g` has for it. -/
def Tree.MovedBy (g : Path → NodeData → NodeData) {k : Kind} (t : Tree k) : Prop :=
  ∀ r u, AnyTree.at? ⟨k, t⟩ r = some u → u.2.data.Moved f (g r u.2.data)

/-- The second node is the first with its starts moved, all the way down. -/
inductive Node.Moved : Node → Node → Prop
  | tree {k : Kind} {t : Tree k} (g : Path → NodeData → NodeData) (h : t.MovedBy f g) :
    Moved (.tree t) (.tree (t.mapData g))
  | entry {c : Category} {e : Child (.any c)} (g : Path → NodeData → NodeData)
      (h : e.tree.MovedBy f g) :
    Moved (.entry c e) (.entry c ⟨e.admitted, e.tree.mapData g⟩)
  | comment {c c' : Comment} (h : c.Moved f c') : Moved (.comment c) (.comment c')

end

/-- Where the node and its comments start. -/
def NodeData.starts (d : NodeData) : List UInt32 :=
  d.range.pos :: (d.comment.toList ++ d.orphans).map fun c => c.range.pos

def Tree.starts {k : Kind} (t : Tree k) : List UInt32 := t.allData.flatMap NodeData.starts

/-- Where anything in the node starts, nodes and comments. -/
def Node.starts : Node → List UInt32
  | .tree t => t.starts
  | .entry _ e => e.tree.starts
  | .comment c => [c.range.pos]

theorem Increasing.lt_iff {f : UInt32 → UInt32} {ps : List UInt32} (hf : Increasing f ps)
    {p q : UInt32} (hp : p ∈ ps) (hq : q ∈ ps) : f p < f q ↔ p < q := by
  refine ⟨fun hlt => ?_, hf p hp q hq⟩
  by_contra hle
  -- the images would be equal, or in the other order
  rcases Nat.lt_or_eq_of_le (UInt32.not_lt.mp hle) with h | h
  · have hback := hf q hq p hp h
    exact absurd (UInt32.lt_trans hlt hback) (UInt32.lt_irrefl _)
  · rw [UInt32.toNat_inj.mp h] at hlt
    exact absurd hlt (UInt32.lt_irrefl _)

theorem AnyTree.allData_of_at? {t u : AnyTree} {r : Path} (h : t.at? r = some u) :
    u.2.allData ⊆ t.2.allData := by
  induction r generalizing t with
  | nil =>
    obtain rfl := Option.some.inj h
    exact List.Subset.refl _
  | cons i r ih =>
    obtain ⟨c, hc, hu⟩ := Option.bind_eq_some_iff.mp h
    intro d hd
    rw [t.2.allData_eq]
    exact List.mem_cons_of_mem _ (List.mem_flatMap.mpr ⟨c, List.mem_of_getElem? hc, ih hu hd⟩)

theorem AnyTree.starts_of_at? {t u : AnyTree} {r : Path} (h : t.at? r = some u) :
    u.2.starts ⊆ t.2.starts := by
  intro p hp
  obtain ⟨d, hd, hpd⟩ := List.mem_flatMap.mp hp
  exact List.mem_flatMap.mpr ⟨d, allData_of_at? h hd, hpd⟩

theorem Tree.data_mem_allData {k : Kind} (t : Tree k) : t.data ∈ t.allData := by
  rw [t.allData_eq]
  exact List.mem_cons_self ..

theorem Tree.starts_data {k : Kind} (t : Tree k) : t.data.starts ⊆ t.starts :=
  fun _ hp => List.mem_flatMap.mpr ⟨t.data, t.data_mem_allData, hp⟩

theorem Tree.MovedBy.below {f : UInt32 → UInt32} {g : Path → NodeData → NodeData} {k : Kind}
    {t : Tree k} (h : t.MovedBy f g) {r : Path} {u : AnyTree} (hu : AnyTree.at? ⟨k, t⟩ r = some u) :
    u.2.MovedBy f fun s => g (r ++ s) :=
  fun _ v hv => h _ v (AnyTree.at?_append hu hv)

theorem forall₂_takeWhile {X Y : Type} {R : X → Y → Prop} {p : X → Bool} {q : Y → Bool}
    (hpq : ∀ x y, R x y → p x = q y) {xs : List X} {ys : List Y} (h : List.Forall₂ R xs ys) :
    List.Forall₂ R (xs.takeWhile p) (ys.takeWhile q) ∧
      List.Forall₂ R (xs.dropWhile p) (ys.dropWhile q) := by
  induction h with
  | nil => exact ⟨.nil, .nil⟩
  | @cons x y xs ys hxy h ih =>
    rw [List.takeWhile_cons, List.takeWhile_cons, List.dropWhile_cons, List.dropWhile_cons,
      ← hpq x y hxy]
    split
    · exact ⟨.cons hxy ih.1, ih.2⟩
    · exact ⟨.nil, .cons hxy h⟩

theorem forall₂_rtakeWhile {X Y : Type} {R : X → Y → Prop} {p : X → Bool} {q : Y → Bool}
    (hpq : ∀ x y, R x y → p x = q y) {xs : List X} {ys : List Y} (h : List.Forall₂ R xs ys) :
    List.Forall₂ R (xs.rtakeWhile p) (ys.rtakeWhile q) :=
  List.rel_reverse (forall₂_takeWhile hpq (List.rel_reverse h)).1

namespace Entry

/-- The same child, or the same orphan, its start moved from one of the positions `ps`. -/
structure Moved (f : UInt32 → UInt32) (ps : List UInt32) (e e' : Entry) : Prop where
  number : e'.number? = e.number?
  comment : Option.Rel (Comment.Moved f) e.comment? e'.comment?
  start : e.pos ∈ ps
  moved : e'.pos = f e.pos

variable {f : UInt32 → UInt32} {ps : List UInt32} {e e' : Entry}

theorem isComment_eq (e : Entry) : e.isComment = e.comment?.isSome := by
  unfold isComment Node.isComment comment?
  cases e.node <;> rfl

theorem Moved.isComment (h : Moved f ps e e') : e.isComment = e'.isComment := by
  have hcomment := h.comment
  rw [isComment_eq, isComment_eq]
  generalize e.comment? = c, e'.comment? = c' at hcomment
  cases hcomment <;> rfl

theorem Moved.isChild (h : Moved f ps e e') (i : Nat) : e.isChild i = e'.isChild i := by
  rw [Bool.eq_iff_iff, isChild_iff, isChild_iff, h.number]

section
variable (hf : Increasing f ps)
include hf

theorem weave_moved {es es' : List Entry} (hes : List.Forall₂ (Moved f ps) es es')
    {os os' : List Entry} (hos : List.Forall₂ (Moved f ps) os os') :
    List.Forall₂ (Moved f ps) (weave es os) (weave es' os') := by
  induction hes generalizing os os' with
  | nil => exact hos
  | @cons e e' es es' he _ ih =>
    have hlt : ∀ o o', Moved f ps o o' → decide (o.pos < e.pos) = decide (o'.pos < e'.pos) := by
      intro o o' ho
      rw [he.moved, ho.moved, decide_eq_decide]
      exact (hf.lt_iff ho.start he.start).symm
    obtain ⟨htake, hdrop⟩ := forall₂_takeWhile hlt hos
    exact List.rel_append htake (.cons he (ih hdrop))

theorem sort_moved {es es' : List Entry} (hes : List.Forall₂ (Moved f ps) es es') :
    List.Forall₂ (Moved f ps) (sort es) (sort es') := by
  induction hes with
  | nil => exact .nil
  | cons he _ ih => exact weave_moved hf (.cons he .nil) ih

end

/-- Entries of which no two start together are sorted in one way, however they are listed. -/
theorem sort_eq_of_perm {es es' : List Entry} (h : es.Perm es') (hnd : (es'.map pos).Nodup) :
    sort es = sort es' := by
  refine List.Perm.eq_of_pairwise (fun a b ha hb hab hba => ?_) (sort_pairwise es) (sort_pairwise es') ?_
  · have ha' : a ∈ es' := h.mem_iff.mp (mem_sort.mp ha)
    exact List.inj_on_of_nodup_map hnd ha' (mem_sort.mp hb) (UInt32.le_antisymm hab hba)
  · exact (sort_perm es).trans (h.trans (sort_perm es').symm)

end Entry

section
variable {f : UInt32 → UInt32} {g : Path → NodeData → NodeData} {ps : List UInt32} {k : Kind}
  {t : Tree k}

theorem Node.childEntries_moved (ht : t.MovedBy f g) (hps : t.starts ⊆ ps) :
    List.Forall₂ (Entry.Moved f ps) (Node.tree t).childEntries (Node.tree (t.mapData g)).childEntries := by
  have hentries : ∀ t : Tree k, (Node.tree t).childEntries =
      t.trees.zipIdx.map fun c => .child c.2 c.1.node := by
    intro t
    rw [childEntries, children_tree, List.zipIdx_map, List.map_map]
    rfl
  rw [hentries, hentries, t.zipIdx_trees_mapData, List.map_map]
  refine List.forall₂_map_left_iff.mpr (List.forall₂_map_right_iff.mpr ?_)
  refine List.forall₂_same.mpr fun c hc => ?_
  have hat : AnyTree.at? ⟨k, t⟩ [c.2] = some c.1 :=
    AnyTree.at?_cons (List.mem_zipIdx_iff_getElem?.mp hc) rfl
  have hdata : (AnyTree.mapChild g c).2.data = g [c.2] c.1.2.data := c.1.2.data_mapData _
  refine ⟨rfl, .none, ?_, ?_⟩
  · have hstart : c.1.2.data.range.pos ∈ c.1.2.starts := c.1.2.starts_data (List.mem_cons_self ..)
    exact hps (AnyTree.starts_of_at? hat hstart)
  · exact (congrArg (fun d : NodeData => d.range.pos) hdata).trans (ht _ _ hat).start

theorem Node.sort_orphanEntries_moved (hf : Increasing f ps) (ht : t.MovedBy f g)
    (hps : t.starts ⊆ ps) :
    List.Forall₂ (Entry.Moved f ps) (Entry.sort (Node.tree t).orphanEntries)
      (Entry.sort (Node.tree (t.mapData g)).orphanEntries) := by
  obtain ⟨cs, horder, hmoved⟩ := (ht [] ⟨k, t⟩ rfl).orphans
  have hsort : Entry.sort (Node.tree t).orphanEntries = Entry.sort (cs.map .orphan) := by
    rcases horder with rfl | ⟨hperm, hnd⟩
    · rfl
    · refine (Entry.sort_eq_of_perm (hperm.map _) ?_).symm
      rw [List.map_map]
      exact hnd
  have hmem : ∀ c ∈ cs, c.range.pos ∈ ps := by
    intro c hc
    have hc' : c ∈ t.data.orphans := by
      rcases horder with rfl | ⟨hperm, -⟩
      · exact hc
      · exact hperm.mem_iff.mp hc
    refine hps (t.starts_data (List.mem_cons_of_mem _ (List.mem_map.mpr ⟨c, ?_, rfl⟩)))
    exact List.mem_append_right _ hc'
  have horphans : (Node.tree (t.mapData g)).orphanEntries = (g [] t.data).orphans.map .orphan :=
    congrArg (fun d : NodeData => d.orphans.map Entry.orphan) (t.data_mapData g)
  rw [hsort, horphans]
  refine Entry.sort_moved hf (List.forall₂_map_left_iff.mpr (List.forall₂_map_right_iff.mpr ?_))
  refine List.forall₂_iff_zip.mpr ⟨hmoved.length_eq, fun {c c'} hcc => ?_⟩
  have hc := (List.forall₂_iff_zip.mp hmoved).2 hcc
  exact ⟨rfl, .some hc, hmem c (List.of_mem_zip hcc).1, hc.start⟩

/-- The lists from which the layout takes orphans correspond. -/
theorem Node.merged_moved (hf : Increasing f ps) (ht : t.MovedBy f g) (hps : t.starts ⊆ ps) :
    List.Forall₂ (Entry.Moved f ps) (Node.tree t).merged (Node.tree (t.mapData g)).merged := by
  rw [merged_eq_weave, merged_eq_weave]
  exact Entry.weave_moved hf (Entry.sort_moved hf (childEntries_moved ht hps))
    (sort_orphanEntries_moved hf ht hps)

theorem Node.orphansBefore_moved (hf : Increasing f ps) (ht : t.MovedBy f g) (hps : t.starts ⊆ ps)
    (i : Nat) : List.Forall₂ (Comment.Moved f) ((Node.tree t).orphansBefore i)
      ((Node.tree (t.mapData g)).orphansBefore i) := by
  have hbefore := (forall₂_takeWhile (p := fun e => !e.isChild i) (q := fun e => !e.isChild i)
    (fun e e' he => congrArg not (he.isChild i)) (merged_moved hf ht hps)).1
  have hrun := forall₂_rtakeWhile (fun _ _ he => Entry.Moved.isComment he) hbefore
  exact List.rel_filterMap (fun _ _ he => Entry.Moved.comment he) hrun

theorem Node.orphansAtEnd_moved (hf : Increasing f ps) (ht : t.MovedBy f g) (hps : t.starts ⊆ ps) :
    List.Forall₂ (Comment.Moved f) (Node.tree t).orphansAtEnd
      (Node.tree (t.mapData g)).orphansAtEnd := by
  have hrun := forall₂_rtakeWhile (fun _ _ he => Entry.Moved.isComment he) (merged_moved hf ht hps)
  exact List.rel_filterMap (fun _ _ he => Entry.Moved.comment he) hrun

end

/-! ### Scripts -/

/-- Both operations do the same to the text and to the statistics. -/
inductive Op.Alike : Op → Op → Prop
  | same (op : Op) : Alike op op
  | comment (orphan : Bool) (c c' : Comment) : Alike (.comment orphan c) (.comment orphan c')
  | decorate (role : Role) (n n' : Node) : Alike (.decorate role n) (.decorate role n')

theorem Op.alike_refl (ops : List Op) : List.Forall₂ Alike ops ops :=
  List.forall₂_same.mpr fun op _ => .same op

theorem PrintState.foldl_alike {ops ops' : List Op} (h : List.Forall₂ Op.Alike ops ops')
    {s s' : PrintState} (hsink : s.sink = s'.sink) (hstats : s.stats = s'.stats) :
    (ops.foldl perform s).sink = (ops'.foldl perform s').sink ∧
      (ops.foldl perform s).stats = (ops'.foldl perform s').stats := by
  induction h generalizing s s' with
  | nil => exact ⟨hsink, hstats⟩
  | @cons op op' ops ops' hop _ ih =>
    -- neither the sink nor the statistics see which comment or node it is
    have hshown : ∀ s : PrintState, (s.perform op).sink = (s.perform op').sink ∧
        (s.perform op).stats = (s.perform op').stats := by
      intro s
      cases hop with
      | same => exact ⟨rfl, rfl⟩
      | comment | decorate => exact ⟨rfl, rfl⟩
    have hstep : (s.perform op).stats = (s'.perform op).stats := by
      cases op with
      | comment orphan c => cases orphan <;> simp [perform, countOrphan, hstats]
      | write | newline | indent | unindent | decorate => exact hstats
    refine ih ?_ (hstep.trans (hshown s').2)
    rw [← (hshown s').1, sink_perform, sink_perform, hsink]

/-- The texts of the wrapper do not depend on the data in a tree. -/
structure Wrapper.IgnoresData (w : Wrapper) : Prop where
  opening : ∀ role {k : Kind} (t : Tree k) g, w.opening role (.tree (t.mapData g)) = w.opening role (.tree t)
  closing : ∀ role {k : Kind} (t : Tree k) g, w.closing role (.tree (t.mapData g)) = w.closing role (.tree t)

theorem Wrapper.ignoresData_plain : plain.IgnoresData := ⟨fun _ _ _ _ => rfl, fun _ _ _ _ => rfl⟩

theorem MarkupStyle.ignoresData (style : MarkupStyle) : style.wrapper.IgnoresData := by
  constructor
  · intro role k t g
    simp only [wrapper, style.isBare_mapData g role t]
  · intro role k t g
    simp only [wrapper, style.isBare_mapData g role t]

section
variable (w : Wrapper) (comments : Bool)

/-- The layouts have scripts that do the same. -/
def Doc.Alike (ds ds' : List Doc) : Prop :=
  List.Forall₂ Op.Alike (scriptAll w comments ds) (scriptAll w comments ds')

/-- The second layout is that of the node with other data. -/
def Layout.OfMapped (l l' : Layout) : Prop := ∃ g, (⟨_, l'.tree⟩ : AnyTree) = AnyTree.mapData g ⟨_, l.tree⟩

variable {w comments} {f : UInt32 → UInt32}

theorem Comment.Moved.ops {c c' : Comment} (h : c.Moved f c') : c'.ops = c.ops := by
  unfold Comment.ops Comment.lineText
  rw [h.kind, h.content]

theorem Doc.Alike.comment {c c' : Comment} (h : c.Moved f c') (orphan : Bool) :
    Alike w comments [.comment orphan c] [.comment orphan c'] := by
  unfold Alike
  rw [scriptAll_singleton, scriptAll_singleton, script, script, h.ops]
  exact .cons (.comment ..) (Op.alike_refl _)

theorem Doc.Alike.append {a a' b b' : List Doc} (ha : Alike w comments a a')
    (hb : Alike w comments b b') : Alike w comments (a ++ b) (a' ++ b') := by
  unfold Alike at *
  rw [scriptAll_append, scriptAll_append]
  exact List.rel_append ha hb

theorem Doc.Alike.orphans {cs cs' : List Comment} (h : List.Forall₂ (Comment.Moved f) cs cs') :
    Alike w comments (orphans cs) (orphans cs') := by
  induction h with
  | nil => exact .nil
  | cons hc _ ih => exact (Alike.comment hc true).append ih

theorem Doc.Alike.attached (k : Kind) {d d' : NodeData} (h : d.Moved f d') :
    Alike w comments (Layout.attached k d) (Layout.attached k d') := by
  have hcomment := h.comment
  unfold Layout.attached
  refine Doc.rel_ite _ .nil ?_
  generalize d.comment = c, d'.comment = c' at hcomment
  cases hcomment with
  | none => exact .nil
  | some hc => exact .comment hc false

theorem Doc.Alike.congruence (hw : w.IgnoresData) :
    Doc.Congruence Layout.OfMapped (Alike w comments) where
  nil := .nil
  append := Alike.append
  write _ := Op.alike_refl _
  newline := Op.alike_refl _
  deeper {a a'} ha := by
    unfold Alike at *
    rw [scriptAll_deeper, scriptAll_deeper]
    exact List.rel_append (List.rel_append (Op.alike_refl _) ha) (Op.alike_refl _)
  decorated {l l'} role _ hl hbody := by
    obtain ⟨g, hl⟩ := hl
    have hnode : Node.tree l'.tree = .tree (l.tree.mapData g) := congrArg AnyTree.node hl
    unfold Alike Layout.decorated at *
    rw [scriptAll_singleton, scriptAll_singleton, script, script, hnode, hw.opening, hw.closing]
    refine List.rel_append (List.rel_append ?_ hbody) (Op.alike_refl _)
    exact .cons (.decorate ..) (Op.alike_refl _)

theorem Tree.layout_moved (hcongr : Doc.Congruence Layout.OfMapped (Doc.Alike w comments))
    {g : Path → NodeData → NodeData} {k : Kind} {t : Tree k} (hf : Increasing f t.starts)
    (ht : t.MovedBy f g) {ix ix' : ParentIndex}
    (hbefore : ∀ r u, AnyTree.at? ⟨k, t⟩ r = some u →
      Doc.Alike w comments (Doc.leading ix r u.node)
        (Doc.leading ix' r (u.mapData fun s => g (r ++ s)).node)) :
    Layout.Rel Layout.OfMapped (Doc.Alike w comments) (.only k) (t.layout ix [])
      ((t.mapData g).layout ix' []) := by
  have hfold := t.fold_mapData g (Layout.ofNode ix') []
  simp only [List.nil_append] at hfold
  rw [layout, layout, hfold]
  refine t.fold_rel [] [] (fun r u hu hrow pl hk => ?_) _ (beq_self_eq_true k)
  rw [List.nil_append, u.2.fold_eq, u.2.fold_eq]
  refine Layout.ofNode_rel hcongr hrow hk ⟨_, rfl⟩ ?_ ?_ (hbefore r u hu)
  · rw [u.2.data_mapData, List.append_nil]
    exact .attached _ (ht r u hu)
  · rw [Doc.trailing_eq, Doc.trailing_eq]
    exact .orphans (Node.orphansAtEnd_moved hf (ht.below hu) (AnyTree.starts_of_at? hu))

end

/-- Before a moved node stand the same orphans. -/
theorem ParentIndex.Of.leading_moved {f : UInt32 → UInt32} {g : Path → NodeData → NodeData}
    {t : AnyTree} {w : Wrapper} {comments : Bool} (hf : Increasing f t.2.starts)
    (ht : t.2.MovedBy f g) {ix ix' : ParentIndex} (hix : ix.Of t) (hix' : ix'.Of (t.mapData g))
    {r : Path} {u : AnyTree} (hu : t.at? r = some u) :
    Doc.Alike w comments (Doc.leading ix r u.node)
      (Doc.leading ix' r (u.mapData fun s => g (r ++ s)).node) := by
  rcases List.eq_nil_or_concat r with rfl | ⟨r, i, rfl⟩
  · rw [hix.leading_root, hix'.leading_root]
    exact .nil
  · rw [List.concat_eq_append] at hu ⊢
    have hu' := AnyTree.at?_mapData g t (r ++ [i])
    rw [hu, Option.map_some] at hu'
    obtain ⟨v, hv, hc⟩ := AnyTree.at?_concat.mp hu
    obtain ⟨v', hv', hc'⟩ := AnyTree.at?_concat.mp hu'
    rw [hix.leading_child hv hc, hix'.leading_child hv' hc']
    rw [AnyTree.at?_mapData, hv, Option.map_some] at hv'
    obtain rfl := Option.some.inj hv'
    exact .orphans (Node.orphansBefore_moved hf (Tree.MovedBy.below ht hv) (AnyTree.starts_of_at? hv) i)

theorem Node.alike_moved {w : Wrapper} (hw : w.IgnoresData) (comments : Bool) {f : UInt32 → UInt32}
    {root root' : Node} (h : root.Moved f root') (hf : Increasing f root.starts)
    {ix ix' : ParentIndex} (hix : ParentIndex.build root = .ok ix)
    (hix' : ParentIndex.build root' = .ok ix') :
    Doc.Alike w comments (root.layout ix []) (root'.layout ix' []) := by
  have hcongr : Doc.Congruence Layout.OfMapped (Doc.Alike w comments) :=
    Doc.Alike.congruence hw
  cases h with
  | @tree k t g ht =>
    obtain ⟨ix₁, hix₁, hof⟩ := ParentIndex.build_tree t
    obtain rfl : ix₁ = ix := by simpa [hix₁] using hix
    obtain ⟨ix₂, hix₂, hof'⟩ := ParentIndex.build_tree (t.mapData g)
    obtain rfl : ix₂ = ix' := by simpa [hix₂] using hix'
    have hrel := Tree.layout_moved hcongr hf ht fun r u hu =>
      ParentIndex.Of.leading_moved (t := ⟨k, t⟩) hf ht hof hof' hu
    exact hrel.alone hcongr
  | @entry c e g ht =>
    obtain ⟨ix₁, hix₁, hnone⟩ := @ParentIndex.build_childless (.entry c e) rfl
    obtain rfl : ix₁ = ix := by simpa [hix₁] using hix
    obtain ⟨ix₂, hix₂, hnone'⟩ :=
      @ParentIndex.build_childless (.entry c ⟨e.admitted, e.tree.mapData g⟩) rfl
    obtain rfl : ix₂ = ix' := by simpa [hix₂] using hix'
    have hrel := Tree.layout_moved hcongr hf ht fun r u _ => by
      rw [ParentIndex.leading_eq_nil hnone, ParentIndex.leading_eq_nil hnone']
      exact hcongr.nil
    cases c with
    | expr => exact hrel.expr hcongr
    | member | stmt => exact hrel.led hcongr
    | typeDecl | type => exact hrel.body
  | comment hc => exact .comment hc false

/-- The nodes that the two walks meet are moved in the same way. -/
theorem Node.walk_moved {f : UInt32 → UInt32} {root root' : Node} (h : root.Moved f root') :
    List.Forall₂ (fun v v' : Visit => v.path = v'.path ∧ v.node.Moved f v'.node ∧
      v.node.starts ⊆ root.starts) root.walk root'.walk := by
  cases h with
  | @tree k t g ht =>
    refine (t.visits_mapData g [] none none).imp ?_
    rintro v v' ⟨r, u, hpath, hpath', hu, hnode, hnode'⟩
    refine ⟨hpath.trans hpath'.symm, ?_, ?_⟩
    · rw [hnode, hnode']
      exact .tree _ (ht.below hu)
    · rw [hnode]
      exact AnyTree.starts_of_at? hu
  | entry g ht => exact .cons ⟨rfl, .entry g ht, List.Subset.refl _⟩ .nil
  | comment hc => exact .cons ⟨rfl, .comment hc, List.Subset.refl _⟩ .nil

theorem Printer.print_moved_root (p : Printer) {w : Wrapper} (hp : p.decorator = w.decorator)
    (hw : w.IgnoresData) {f : UInt32 → UInt32} {root root' : Node} (h : root.Moved f root')
    (hf : Increasing f root.starts) (s s' : PrintState) :
    ∃ text, (p.print root s).1 = .ok text ∧ (p.print root' s').1 = .ok text ∧
      (p.print root s).2.stats = (p.print root' s').2.stats := by
  obtain ⟨ix, hix, -⟩ := ParentIndex.build_ok root
  obtain ⟨ix', hix', -⟩ := ParentIndex.build_ok root'
  have hsize : ix.size + 1 = ix'.size + 1 := by
    rw [ParentIndex.size_build hix, ParentIndex.size_build hix', (Node.walk_moved h).length_eq]
  have hsink : (p.passStart ix s).sink = (p.passStart ix' s').sink := rfl
  have hstats : (p.passStart ix s).stats = (p.passStart ix' s').stats :=
    congrArg (fun n => Stats.mk n 0) hsize
  have halike := Node.alike_moved hw p.options.printComments h hf hix hix'
  obtain ⟨hsink, hstats⟩ := PrintState.foldl_alike halike hsink hstats
  have htext := p.print_eq_script hp hix s
  have htext' := p.print_eq_script hp hix' s'
  refine ⟨_, htext, ?_, ?_⟩
  · rw [PrintState.sink_foldl, PrintState.sink_foldl] at hsink
    exact htext'.trans (congrArg (fun sink : Sink => Except.ok sink.text) hsink.symm)
  · rw [print_stats, print_stats, p.pass_eq_script hp hix, p.pass_eq_script hp hix']
    exact hstats

/-- Only the order of the starts matters. Let the starts in a tree be moved so that their order stays,
the ends anywhere, and orphans of which no two start together be listed in another order. Then every
node of the tree prints as the node at the same place of the other tree, with the same statistics,
without a decorator and under markup. -/
theorem Printer.print_moved (options : PrintOptions) (style : Option MarkupStyle)
    {f : UInt32 → UInt32} {root root' : Node} (h : root.Moved f root')
    (hf : Increasing f root.starts) (s s' : PrintState) :
    let p : Printer := ⟨options, style.elim .plain MarkupStyle.decorator⟩
    List.Forall₂ (fun v v' : Visit => v.path = v'.path ∧
      ∃ text, (p.print v.node s).1 = .ok text ∧ (p.print v'.node s').1 = .ok text ∧
        (p.print v.node s).2.stats = (p.print v'.node s').2.stats) root.walk root'.walk := by
  intro p
  obtain ⟨w, hp, hw⟩ : ∃ w : Wrapper, p.decorator = w.decorator ∧ w.IgnoresData := by
    cases style with
    | none => exact ⟨.plain, Wrapper.plain_decorator.symm, Wrapper.ignoresData_plain⟩
    | some style => exact ⟨style.wrapper, style.wrapper_decorator.symm, style.ignoresData⟩
  refine (Node.walk_moved h).imp ?_
  rintro v v' ⟨hpath, hmoved, hstarts⟩
  refine ⟨hpath, p.print_moved_root hp hw hmoved ?_ s s'⟩
  exact fun a ha b hb => hf a (hstarts ha) b (hstarts hb)

/-- All starts twice as far, all ends at the beginning, and the orphans listed backwards. -/
def NodeData.stretched (d : NodeData) : NodeData :=
  let range (r : Range) : Range := ⟨2 * r.pos, 0⟩
  let comment (c : Comment) : Comment := { c with range := range c.range }
  ⟨range d.range, d.comment.map comment, d.orphans.reverse.map comment⟩

theorem NodeData.moved_stretched {d : NodeData} (h : (d.orphans.map fun c => c.range.pos).Nodup) :
    d.Moved (2 * ·) d.stretched := by
  refine ⟨rfl, ?_, d.orphans.reverse, .inr ⟨List.reverse_perm _, h⟩, ?_⟩
  · obtain ⟨range, - | c, orphans⟩ := d
    · exact .none
    · exact .some ⟨rfl, rfl, rfl⟩
  · exact List.forall₂_map_right_iff.mpr (List.forall₂_same.mpr fun c _ => ⟨rfl, rfl, rfl⟩)

/-- A block with a comment before each of its two statements, the second one listed first. -/
def Tree.remarkedBlock : Tree .blockStmt :=
  let comment (pos : UInt32) : Comment := { kind := .line, content := "c", range := ⟨pos, pos + 2⟩ }
  let statement (pos : UInt32) : Stmt := ((Build.continueStmt none).spanning ⟨pos, pos + 9⟩).inside
  (Build.block [statement 5, statement 20]).withOrphans [comment 16, comment 1]

theorem Printer.print_moved_remarkedBlock :
    let block := Tree.remarkedBlock
    let stretched := block.mapData fun _ => NodeData.stretched
    (Node.tree block).Moved (2 * ·) (.tree stretched) ∧ Increasing (2 * ·) (Node.tree block).starts ∧
      ∃ text, (print {} (.tree block) (init {})).1 = .ok text ∧
        (print {} (.tree stretched) (init {})).1 = .ok text ∧
        (print {} (.tree block) (init {})).2.stats = (print {} (.tree stretched) (init {})).2.stats := by
  intro block stretched
  have hmoved : (Node.tree block).Moved (2 * ·) (.tree stretched) := by
    refine .tree _ fun r u hu => NodeData.moved_stretched ?_
    have hall : (block.allData.all fun d => decide (d.orphans.map fun c => c.range.pos).Nodup) = true := by
      decide
    have hmem := AnyTree.allData_of_at? hu u.2.data_mem_allData
    simpa using List.all_eq_true.mp hall _ hmem
  have hinc : Increasing (2 * ·) (Node.tree block).starts := by
    have hall : ((Node.tree block).starts.all fun p => (Node.tree block).starts.all fun q =>
        decide (p < q → 2 * p < 2 * q)) = true := by
      decide
    intro p hp q hq
    exact of_decide_eq_true (List.all_eq_true.mp (List.all_eq_true.mp hall p hp) q hq)
  have hvisits := Printer.print_moved {} none hmoved hinc (init {}) (init {})
  simp only [Node.walk, Tree.visits_eq, Option.elim_none, List.forall₂_cons] at hvisits
  exact ⟨hmoved, hinc, hvisits.1.2⟩

end JavaText
