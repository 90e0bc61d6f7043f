import Mathlib.Data.List.Nodup
import JavaText.Proofs.Runs

/-!
# The index of a tree

A walk meets no path twice, so the index can always be built, and below the root it gives each node the
node that it is a child of (`ParentIndex.build_tree`). A node that shows no children has an index
without entries (`ParentIndex.build_childless`).
-/

namespace JavaText

theorem Tree.prefix_of_mem_visits {k : Kind} (t : Tree k) (path : Path) (parent : Option Node)
    {v : Visit} (hv : v ∈ t.visits path parent) : path <+: v.path := by
  induction t using Tree.of_trees generalizing path parent with
  | step t ih =>
    rw [visits_eq] at hv
    rcases List.mem_cons.mp hv with rfl | hv
    · exact List.prefix_refl _
    · obtain ⟨c, hc, hv⟩ := List.mem_flatMap.mp hv
      have h := ih c.1 (List.fst_mem_of_mem_zipIdx hc) _ _ hv
      exact (List.prefix_append path [c.2]).trans h

/-- What is visited below two different children has different paths. -/
theorem eq_of_concat_prefix {path p : Path} {i j : Nat} (hi : path ++ [i] <+: p)
    (hj : path ++ [j] <+: p) : i = j := by
  have h : path ++ [i] = path ++ [j] :=
    (List.prefix_of_prefix_length_le hi hj (by simp)).eq_of_length (by simp)
  simpa using h

theorem Tree.nodup_visits {k : Kind} (t : Tree k) (path : Path) (parent : Option Node) :
    ((t.visits path parent).map Visit.path).Nodup := by
  induction t using Tree.of_trees generalizing path parent with
  | step t ih =>
    rw [visits_eq, List.map_cons, List.map_flatMap, List.nodup_cons, List.nodup_flatMap]
    refine ⟨fun hmem => ?_, fun c hc => ?_, ?_⟩
    · obtain ⟨c, hc, hv⟩ := List.mem_flatMap.mp hmem
      obtain ⟨v, hv, hpath⟩ := List.mem_map.mp hv
      have hlen := (prefix_of_mem_visits _ _ _ hv).length_le
      rw [hpath, List.length_append] at hlen
      exact absurd hlen (Nat.not_succ_le_self _)
    · exact ih c.1 (List.fst_mem_of_mem_zipIdx hc) _ _
    · have hnum : (t.trees.zipIdx.map Prod.snd).Nodup := by
        rw [List.zipIdx_map_snd]
        exact List.nodup_range'
      refine (List.pairwise_map.mp hnum).imp fun {c d} hne p hc hd => hne ?_
      obtain ⟨v, hv, hvp⟩ := List.mem_map.mp hc
      obtain ⟨w, hw, hwp⟩ := List.mem_map.mp hd
      have h₁ := prefix_of_mem_visits _ _ _ hv
      have h₂ := prefix_of_mem_visits _ _ _ hw
      rw [hvp] at h₁
      rw [hwp] at h₂
      exact eq_of_concat_prefix h₁ h₂

/-- Every child in the tree is visited below its parent. -/
theorem Tree.mem_visits {k : Kind} (t : Tree k) (path r : Path) (parent : Option Node)
    {u c : AnyTree} {i : Nat} (hu : AnyTree.at? ⟨k, t⟩ r = some u) (hc : u.2.trees[i]? = some c) :
    ⟨path ++ r ++ [i], some u.node, c.node⟩ ∈ t.visits path parent := by
  induction r generalizing k path parent with
  | nil =>
    cases hu
    rw [visits_eq]
    refine List.mem_cons_of_mem _ (List.mem_flatMap.mpr ⟨(c, i), ?_, ?_⟩)
    · exact List.mem_zipIdx_iff_getElem?.mpr hc
    · rw [AnyTree.visits, visits_eq, List.append_nil]
      exact List.mem_cons_self ..
  | cons j r ih =>
    obtain ⟨d, hd, hu⟩ := Option.bind_eq_some_iff.mp hu
    rw [visits_eq]
    refine List.mem_cons_of_mem _ (List.mem_flatMap.mpr ⟨(d, j), ?_, ?_⟩)
    · exact List.mem_zipIdx_iff_getElem?.mpr hd
    · have h := ih d.2 (path ++ [j]) (some (.tree t)) hu
      simpa [AnyTree.visits] using h

/-- What is visited is a node of the tree, at its place. -/
theorem Tree.at?_of_mem_visits {k : Kind} (t : Tree k) (path : Path) (parent : Option Node) {v : Visit}
    (hv : v ∈ t.visits path parent) :
    ∃ r u, v.path = path ++ r ∧ AnyTree.at? ⟨k, t⟩ r = some u ∧ v.node = u.node := by
  induction t using Tree.of_trees generalizing path parent with
  | step t ih =>
    rw [visits_eq] at hv
    rcases List.mem_cons.mp hv with rfl | hv
    · exact ⟨[], ⟨_, t⟩, (List.append_nil _).symm, rfl, rfl⟩
    · obtain ⟨c, hc, hv⟩ := List.mem_flatMap.mp hv
      obtain ⟨r, u, hpath, hu, hnode⟩ := ih c.1 (List.fst_mem_of_mem_zipIdx hc) _ _ hv
      refine ⟨c.2 :: r, u, ?_, AnyTree.at?_cons (List.mem_zipIdx_iff_getElem?.mp hc) hu, hnode⟩
      rw [hpath, List.append_assoc]
      rfl

/-- What is visited below a node has a parent. -/
theorem Tree.parent_of_mem_visits {k : Kind} (t : Tree k) (path : Path) (parent : Node) {v : Visit}
    (hv : v ∈ t.visits path (some parent)) : v.parent.isSome := by
  induction t using Tree.of_trees generalizing path parent with
  | step t ih =>
    rw [visits_eq] at hv
    rcases List.mem_cons.mp hv with rfl | hv
    · rfl
    · obtain ⟨c, hc, hv⟩ := List.mem_flatMap.mp hv
      exact ih c.1 (List.fst_mem_of_mem_zipIdx hc) _ _ hv

/-- A walk begins with the root. -/
theorem Node.mem_walk (n : Node) : ⟨[], none, n⟩ ∈ n.walk := by
  cases n with
  | tree t =>
    rw [Node.walk, Tree.visits_eq]
    exact List.mem_cons_self ..
  | entry | comment => exact List.mem_singleton_self _

namespace ParentIndex

theorem parentOf_empty (path : Path) : empty.parentOf path = none := Std.TreeMap.getElem?_emptyc

theorem parentOf_insert (ix : ParentIndex) (path p : Path) (parent : Node) :
    (ParentIndex.mk (ix.parents.insert path parent)).parentOf p =
      if path = p then some parent else ix.parentOf p := by
  simp only [parentOf, Std.TreeMap.getElem?_insert, Std.compare_eq_iff_eq]

/-- Visits to different places, none of which is in the index yet, can all be recorded. -/
theorem foldlM_insert (vs : List Visit) (ix : ParentIndex) (hnd : (vs.map Visit.path).Nodup)
    (hfree : ∀ v ∈ vs, ix.parentOf v.path = none) :
    ∃ ix', vs.foldlM insert ix = .ok ix' ∧ (∀ v ∈ vs, ix'.parentOf v.path = v.parent) ∧
      ∀ p, p ∉ vs.map Visit.path → ix'.parentOf p = ix.parentOf p := by
  induction vs generalizing ix with
  | nil => exact ⟨ix, rfl, by simp, fun _ _ => rfl⟩
  | cons v vs ih =>
    rw [List.map_cons, List.nodup_cons] at hnd
    have hv : ix.parents[v.path]? = none := hfree v (List.mem_cons_self ..)
    -- one step: the entry of `v` and nothing else
    obtain ⟨ix₁, hstep, hself, hother⟩ : ∃ ix₁, insert ix v = .ok ix₁ ∧
        ix₁.parentOf v.path = v.parent ∧ ∀ p, p ≠ v.path → ix₁.parentOf p = ix.parentOf p := by
      cases hp : v.parent with
      | none => exact ⟨ix, by simp [insert, hp], hv, fun _ _ => rfl⟩
      | some parent =>
        refine ⟨⟨ix.parents.insert v.path parent⟩, by simp only [insert, hp, hv], ?_, fun p hne => ?_⟩
        · rw [parentOf_insert, if_pos rfl]
        · rw [parentOf_insert, if_neg (Ne.symm hne)]
    have hfree₁ : ∀ w ∈ vs, ix₁.parentOf w.path = none := fun w hw => by
      have hne : w.path ≠ v.path := fun h => hnd.1 (h ▸ List.mem_map_of_mem hw)
      rw [hother _ hne, hfree w (List.mem_cons_of_mem _ hw)]
    obtain ⟨ix', hfold, hin, hout⟩ := ih ix₁ hnd.2 hfree₁
    refine ⟨ix', ?_, fun w hw => ?_, fun p hp => ?_⟩
    · rw [List.foldlM_cons, hstep]
      exact hfold
    · rcases List.mem_cons.mp hw with rfl | hw
      · rw [hout _ hnd.1, hself]
      · exact hin w hw
    · rw [List.map_cons, List.mem_cons, not_or] at hp
      rw [hout _ hp.2, hother _ hp.1]

theorem size_insert {ix ix' : ParentIndex} {v : Visit} (h : insert ix v = .ok ix') :
    ix'.size = ix.size + if v.parent.isSome then 1 else 0 := by
  rw [insert] at h
  cases hp : v.parent with
  | none =>
    rw [hp] at h
    cases h
    rfl
  | some parent =>
    rw [hp] at h
    cases hpath : ix.parents[v.path]? with
    | some first => simp [hpath] at h
    | none =>
      simp only [hpath, Except.ok.injEq] at h
      have hnot : v.path ∉ ix.parents := by
        rw [← Std.TreeMap.isSome_getElem?_iff_mem, hpath]
        exact Bool.false_ne_true
      rw [← h]
      simp [size, Std.TreeMap.size_insert, hnot]

theorem size_foldlM_insert (vs : List Visit) {ix ix' : ParentIndex} (h : vs.foldlM insert ix = .ok ix') :
    ix'.size = ix.size + vs.countP fun v => v.parent.isSome := by
  induction vs generalizing ix with
  | nil =>
    cases h
    rfl
  | cons v vs ih =>
    rw [List.foldlM_cons] at h
    cases hstep : insert ix v with
    | error e =>
      rw [hstep] at h
      cases h
    | ok ix₁ =>
      rw [hstep] at h
      rw [ih h, size_insert hstep, List.countP_cons, Nat.add_assoc, Nat.add_comm (List.countP ..)]

/-- All nodes below the root have an entry. -/
theorem size_build {root : Node} {ix : ParentIndex} (h : build root = .ok ix) :
    ix.size + 1 = root.walk.length := by
  have hsize := size_foldlM_insert root.walk h
  have hempty : empty.size = 0 := rfl
  rw [hempty, Nat.zero_add] at hsize
  cases root with
  | tree t =>
    have hbelow : ∀ v ∈ t.trees.zipIdx.flatMap (AnyTree.visits [] (.tree t)), v.parent.isSome := by
      intro v hv
      obtain ⟨c, -, hv⟩ := List.mem_flatMap.mp hv
      exact c.1.2.parent_of_mem_visits _ _ hv
    rw [Node.walk, Tree.visits_eq] at hsize ⊢
    rw [hsize, List.countP_cons_of_neg (by simp), List.countP_eq_length.mpr hbelow, List.length_cons]
  | entry _ e => rw [hsize]; rfl
  | comment c => rw [hsize]; rfl

theorem nodup_walk (root : Node) : (root.walk.map Visit.path).Nodup := by
  cases root with
  | tree t => exact t.nodup_visits [] none
  | entry _ e => simp [Node.walk]
  | comment c => simp [Node.walk]

/-- The index can be built from any root. It holds what the walk has met. -/
theorem build_ok (root : Node) :
    ∃ ix, build root = .ok ix ∧ (∀ v ∈ root.walk, ix.parentOf v.path = v.parent) ∧
      ∀ p, p ∉ root.walk.map Visit.path → ix.parentOf p = none := by
  obtain ⟨ix, hix, hin, hout⟩ :=
    foldlM_insert root.walk empty (nodup_walk root) fun v _ => parentOf_empty v.path
  exact ⟨ix, hix, hin, fun p hp => (hout p hp).trans (parentOf_empty p)⟩

/-- What the index of a tree says: the root has no parent, and a child the node it is a child of. -/
structure Of (ix : ParentIndex) (t : AnyTree) : Prop where
  root : ix.parentOf [] = none
  child : ∀ r i u c, t.at? r = some u → u.2.trees[i]? = some c → ix.parentOf (r ++ [i]) = some u.node

/-- Orphans stand before a node other than the root, taken from its parent. -/
theorem Of.leading_child {ix : ParentIndex} {t : AnyTree} (h : ix.Of t) {r : Path} {i : Nat}
    {u c : AnyTree} (hu : t.at? r = some u) (hc : u.2.trees[i]? = some c) (n : Node) :
    Doc.leading ix (r ++ [i]) n = Doc.orphans (u.node.orphansBefore i) := by
  refine Doc.leading_eq (h.child r i u c hu hc) ?_ n
  rw [AnyTree.node, Node.children_tree, List.length_map]
  exact (List.getElem?_eq_some_iff.mp hc).1

theorem Of.leading_root {ix : ParentIndex} {t : AnyTree} (h : ix.Of t) (n : Node) :
    Doc.leading ix [] n = [] := by
  simp only [Doc.leading, h.root]

/-- At every place in the tree only orphans are set before the node. -/
theorem Of.leading {ix : ParentIndex} {t : AnyTree} (h : ix.Of t) {r : Path} {u : AnyTree}
    (hu : t.at? r = some u) (n : Node) : ∃ cs, Doc.leading ix r n = Doc.orphans cs := by
  rcases List.eq_nil_or_concat r with rfl | ⟨r, i, rfl⟩
  · exact ⟨[], h.leading_root n⟩
  · rw [List.concat_eq_append] at hu ⊢
    obtain ⟨v, hv, hu⟩ := AnyTree.at?_concat.mp hu
    exact ⟨_, h.leading_child hv hu n⟩

theorem build_tree {k : Kind} (t : Tree k) : ∃ ix, build (.tree t) = .ok ix ∧ ix.Of ⟨k, t⟩ := by
  obtain ⟨ix, hix, hin, -⟩ := build_ok (.tree t)
  refine ⟨ix, hix, ?_, fun r i u c hu hc => ?_⟩
  · exact hin _ (Node.tree t).mem_walk
  · have h := hin _ (t.mem_visits [] r none hu hc)
    simpa using h

theorem build_childless {root : Node} (h : root.walk = [⟨[], none, root⟩]) :
    ∃ ix, build root = .ok ix ∧ ∀ p, ix.parentOf p = none := by
  obtain ⟨ix, hix, hin, hout⟩ := build_ok root
  refine ⟨ix, hix, fun p => ?_⟩
  rw [h] at hin hout
  by_cases hp : p = []
  · subst hp
    exact hin _ (List.mem_singleton_self _)
  · exact hout p (by simpa using hp)

/-- Where no node has a parent, nothing is set before any node. -/
theorem leading_eq_nil {ix : ParentIndex} (h : ∀ p, ix.parentOf p = none) (path : Path) (n : Node) :
    Doc.leading ix path n = [] := by
  simp only [Doc.leading, h]

end ParentIndex

end JavaText
