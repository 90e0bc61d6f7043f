import Mathlib.Data.List.DropRight
import Mathlib.Data.List.Sort
import JavaText.Layout.Basic
import JavaText.Proofs.Subtrees

/-!
# Runs of comments between children

The merged list of a node, taken apart at its children. Every comment of the list stands in the run
before exactly one child or in the trailing run (`Entry.eq_runs`), so the runs, put back in the order of
the children, are the list. If the children start in the order in which they are declared, that order is
their own (`Node.merged_eq_of_sorted`).
-/

namespace JavaText

namespace Entry

/-- The comment that the entry is. -/
def comment? (e : Entry) : Option Comment :=
  match e.node with
  | .comment c => some c
  | _ => none

@[simp] theorem comment?_orphan (c : Comment) : (orphan c).comment? = some c := rfl

theorem isComment_iff (e : Entry) : e.isComment = true ↔ ∃ c, e.node = .comment c := by
  unfold isComment Node.isComment
  cases e.node <;> simp

theorem comment?_eq_none {e : Entry} (h : e.isComment = false) : e.comment? = none := by
  unfold isComment Node.isComment at h
  unfold comment?
  cases hn : e.node <;> simp_all

/-- The number of a child. -/
def number? : Entry → Option Nat
  | .child i _ => some i
  | .orphan _ => none

theorem isChild_iff (i : Nat) (e : Entry) : e.isChild i = true ↔ e.number? = some i := by
  cases e with
  | child j n => simp only [isChild, number?, beq_iff_eq, Option.some.injEq]; exact eq_comm
  | orphan c => simp [isChild, number?]

theorem isComment_of_number? {e : Entry} (h : e.number? = none) : e.isComment = true := by
  cases e with
  | child i n => simp [number?] at h
  | orphan c => rfl

/-- The comments of a list of entries. -/
def comments (es : List Entry) : List Comment := es.filterMap comment?

@[simp] theorem comments_append (es fs : List Entry) :
    comments (es ++ fs) = comments es ++ comments fs := List.filterMap_append

theorem map_orphan_comments {es : List Entry} (h : ∀ e ∈ es, e.number? = none) :
    (comments es).map orphan = es := by
  induction es with
  | nil => rfl
  | cons e es ih =>
    have ih := ih fun f hf => h f (List.mem_cons_of_mem _ hf)
    cases e with
    | child i n => simp [number?] at h
    | orphan c => simpa [comments] using ih

@[simp] theorem comments_map_orphan (cs : List Comment) : comments (cs.map orphan) = cs := by
  simp [comments, List.filterMap_map, Function.comp_def]

/-- The run of comments right before child number `i`. -/
def runBefore (es : List Entry) (i : Nat) : List Entry :=
  (es.takeWhile fun e => !e.isChild i).rtakeWhile isComment

/-- The run of comments at the end. -/
def runAtEnd (es : List Entry) : List Entry := es.rtakeWhile isComment

theorem isComment_of_mem_runBefore {es : List Entry} {i : Nat} {e : Entry}
    (h : e ∈ runBefore es i) : e.isComment = true := List.mem_rtakeWhile_imp h

theorem isComment_of_mem_runAtEnd {es : List Entry} {e : Entry} (h : e ∈ runAtEnd es) :
    e.isComment = true := List.mem_rtakeWhile_imp h

theorem slice_fst (s : Span) (es : List Entry) :
    (s.slice es).map Prod.fst = (es.take s.stop).drop s.start := by
  rw [Span.slice, List.map_drop, List.map_take, List.zipIdx_map_fst]

theorem drop_length_sub_rtakeWhile (p : Entry → Bool) (es : List Entry) :
    es.drop (es.length - (es.reverse.takeWhile p).length) = es.rtakeWhile p := by
  have h := List.suffix_iff_eq_drop.mp (List.rtakeWhile_suffix p es)
  rw [h, List.rtakeWhile, List.length_reverse]

theorem slice_leadingRun {es : List Entry} {k : Nat} (hk : k ≤ es.length) :
    ((leadingRun es k).slice es).map Prod.fst = (es.take k).rtakeWhile isComment := by
  have h := drop_length_sub_rtakeWhile isComment (es.take k)
  rw [List.length_take_of_le hk] at h
  rw [slice_fst, leadingRun, h]

theorem slice_trailingRun (es : List Entry) :
    ((trailingRun es).slice es).map Prod.fst = runAtEnd es := by
  rw [slice_fst, trailingRun, List.take_length, drop_length_sub_rtakeWhile, runAtEnd]

/-- The list from `ys` on, seen from the comments that `xs` ends in: before each child of `ys` its run,
then the trailing run. -/
theorem eq_runs_from {es : List Entry} (hnum : (es.filterMap number?).Nodup)
    (hplain : ∀ e ∈ es, e.number?.isSome → e.isComment = false) (xs ys : List Entry)
    (hes : es = xs ++ ys) :
    xs.rtakeWhile isComment ++ ys =
      ((ys.filter fun e => !e.isComment).flatMap fun e => (e.number?.elim [] (runBefore es)) ++ [e])
        ++ runAtEnd es := by
  induction ys generalizing xs with
  | nil => simp [hes, runAtEnd]
  | cons e ys ih =>
    have hmem : e ∈ es := by simp [hes]
    have ih := ih (xs ++ [e]) (by simp [hes])
    cases hn : e.number? with
    | none =>
      have hc := isComment_of_number? hn
      rw [List.rtakeWhile_concat_pos _ _ _ hc] at ih
      simpa [hc] using ih
    | some i =>
      have hc : e.isComment = false := hplain e hmem (by simp [hn])
      rw [List.rtakeWhile_concat_neg _ _ _ (by simp [hc])] at ih
      have hnot : ∀ f ∈ xs, (!f.isChild i) = true := by
        intro f hf
        have hne : f.number? ≠ some i := by
          intro hfi
          rw [hes, List.filterMap_append, List.filterMap_cons_some hn] at hnum
          have hdisj := (List.nodup_append'.mp hnum).2.2
          exact hdisj (List.mem_filterMap.mpr ⟨f, hf, hfi⟩) (List.mem_cons_self ..)
        simpa [← isChild_iff] using hne
      have hrun : runBefore es i = xs.rtakeWhile isComment := by
        rw [runBefore, hes, List.takeWhile_append_of_pos hnot, List.takeWhile_cons_of_neg]
        · rw [List.append_nil]
        · simp [(isChild_iff i e).mpr hn]
      simp only [List.nil_append] at ih
      simp [hc, hn, hrun, ← ih]

/-- A list of entries is the runs before its children, each followed by the child, and the trailing
run. -/
theorem eq_runs {es : List Entry} (hnum : (es.filterMap number?).Nodup)
    (hplain : ∀ e ∈ es, e.number?.isSome → e.isComment = false) :
    es = ((es.filter fun e => !e.isComment).flatMap fun e =>
      (e.number?.elim [] (runBefore es)) ++ [e]) ++ runAtEnd es := by
  have h := eq_runs_from hnum hplain [] es rfl
  simpa using h

theorem sort_eq_insertionSort (es : List Entry) :
    sort es = es.insertionSort fun e f => e.pos ≤ f.pos := by
  refine congrArg (fun insert => es.foldr insert []) (funext fun e => funext fun fs => ?_)
  rw [List.orderedInsert_eq_take_drop]
  simp only [UInt32.not_le]

theorem sort_perm (es : List Entry) : (sort es).Perm es := by
  rw [sort_eq_insertionSort]
  exact List.perm_insertionSort ..

theorem mem_sort {e : Entry} {es : List Entry} : e ∈ sort es ↔ e ∈ es := (sort_perm es).mem_iff

theorem sort_pairwise (es : List Entry) : (sort es).Pairwise fun e f => e.pos ≤ f.pos := by
  have : Std.Total fun e f : Entry => e.pos ≤ f.pos := ⟨fun e f => UInt32.le_total e.pos f.pos⟩
  have : IsTrans Entry fun e f => e.pos ≤ f.pos := ⟨fun _ _ _ => UInt32.le_trans⟩
  rw [sort_eq_insertionSort]
  exact List.pairwise_insertionSort _ es

theorem sort_eq_self {es : List Entry} (h : es.Pairwise fun e f => e.pos ≤ f.pos) : sort es = es := by
  rw [sort_eq_insertionSort]
  exact h.insertionSort_eq

/-- Puts sorted entries among other sorted ones: before each of `es` come those of `fs` that start
earlier. -/
def weave : (es fs : List Entry) → List Entry
  | [], fs => fs
  | e :: es, fs =>
    fs.takeWhile (fun f => f.pos < e.pos) ++ e :: weave es (fs.dropWhile fun f => f.pos < e.pos)

/-- Sorting weaves in one entry after the other. -/
theorem sort_cons (e : Entry) (es : List Entry) : sort (e :: es) = weave [e] (sort es) := rfl

theorem weave_of_lt {e f : Entry} (h : f.pos < e.pos) (es fs : List Entry) :
    weave (e :: es) (f :: fs) = f :: weave (e :: es) fs := by
  simp [weave, h]

theorem weave_of_le {e f : Entry} (h : e.pos ≤ f.pos) (es fs : List Entry) :
    weave (e :: es) (f :: fs) = e :: weave es (f :: fs) := by
  simp [weave, UInt32.not_lt.mpr h]

theorem nil_weave (fs : List Entry) : weave [] fs = fs := rfl

theorem weave_nil (es : List Entry) : weave es [] = es := by
  induction es with
  | nil => rfl
  | cons e es ih => simp [weave, ih]

theorem weave_singleton_weave (e : Entry) (es fs : List Entry) :
    weave [e] (weave es fs) = weave (weave [e] es) fs := by
  induction es generalizing fs with
  | nil => rfl
  | cons g es ih =>
    induction fs with
    | nil => rw [weave_nil, weave_nil]
    | cons f fs ihf =>
      by_cases hg : g.pos < e.pos
      -- The entry goes behind `g`, so it is behind whatever is woven in before `g`.
      · rw [weave_of_lt hg] at ihf ⊢
        by_cases hf : f.pos < g.pos
        · rw [weave_of_lt hf, weave_of_lt hf, weave_of_lt (UInt32.lt_trans hf hg), ihf]
        · have hf := UInt32.not_lt.mp hf
          rw [weave_of_le hf, weave_of_le hf, weave_of_lt hg, ih]
      -- It goes before `g`, and something woven in may still come before it.
      · have hg := UInt32.not_lt.mp hg
        rw [weave_of_le hg, nil_weave] at ihf ⊢
        by_cases hf : f.pos < e.pos
        · rw [weave_of_lt hf, weave_of_lt (UInt32.lt_of_lt_of_le hf hg), weave_of_lt hf, ihf]
        · have hf := UInt32.not_lt.mp hf
          rw [weave_of_le hf]
          by_cases hfg : f.pos < g.pos
          · rw [weave_of_lt hfg, weave_of_le hf, nil_weave]
          · rw [weave_of_le (UInt32.not_lt.mp hfg), weave_of_le hg, nil_weave]

/-- Two parts of a list can be sorted apart and then woven. -/
theorem sort_append (es fs : List Entry) : sort (es ++ fs) = weave (sort es) (sort fs) := by
  induction es with
  | nil => rfl
  | cons e es ih =>
    rw [List.cons_append, sort_cons, ih, sort_cons]
    exact weave_singleton_weave e (sort es) (sort fs)

/-- Weaving keeps the order of the first list. -/
theorem filter_weave {p : Entry → Bool} (es : List Entry) (fs : List Entry)
    (hes : ∀ e ∈ es, p e = true) (hfs : ∀ f ∈ fs, p f = false) : (weave es fs).filter p = es := by
  induction es generalizing fs with
  | nil => exact List.filter_eq_nil_iff.mpr fun f hf => by simp [hfs f hf]
  | cons e es ih =>
    have htake : (fs.takeWhile fun f => f.pos < e.pos).filter p = [] :=
      List.filter_eq_nil_iff.mpr fun f hf => by simp [hfs f ((List.takeWhile_sublist _).mem hf)]
    rw [weave, List.filter_append, htake, List.nil_append,
      List.filter_cons_of_pos (hes e (List.mem_cons_self ..)),
      ih _ (fun f hf => hes f (List.mem_cons_of_mem _ hf))
        fun f hf => hfs f ((List.dropWhile_sublist _).mem hf)]

end Entry

namespace Node

variable (n : Node)

/-- The orphans between child number `i` and the child before it in the source. -/
def orphansBefore (i : Nat) : List Comment := Entry.comments (Entry.runBefore n.merged i)

/-- The orphans after the last child in the source. -/
def orphansAtEnd : List Comment := Entry.comments (Entry.runAtEnd n.merged)

theorem merged_perm : n.merged.Perm (n.childEntries ++ n.orphanEntries) := Entry.sort_perm _

/-- The merged list is the children as they start, with the orphans woven in as they start. -/
theorem merged_eq_weave :
    n.merged = Entry.weave (Entry.sort n.childEntries) (Entry.sort n.orphanEntries) :=
  Entry.sort_append ..

theorem mem_childEntries {e : Entry} :
    e ∈ n.childEntries ↔ ∃ i c, n.children[i]? = some c ∧ e = .child i c := by
  simp only [childEntries, List.mem_map, Prod.exists, List.mem_zipIdx_iff_getElem?]
  constructor
  · rintro ⟨c, i, hc, rfl⟩
    exact ⟨i, c, hc, rfl⟩
  · rintro ⟨i, c, hc, rfl⟩
    exact ⟨c, i, hc, rfl⟩

theorem isComment_childEntries {e : Entry} (h : e ∈ n.childEntries) : e.isComment = false := by
  obtain ⟨i, c, hc, rfl⟩ := n.mem_childEntries.mp h
  exact isComment_of_mem_children (List.mem_of_getElem? hc)

theorem isComment_orphanEntries {e : Entry} (h : e ∈ n.orphanEntries) : e.isComment = true := by
  obtain ⟨c, -, rfl⟩ := List.mem_map.mp h
  rfl

/-- Without the comments, the merged list is the children as they start. -/
theorem filter_merged :
    (n.merged.filter fun e => !e.isComment) = Entry.sort n.childEntries := by
  rw [merged_eq_weave]
  refine Entry.filter_weave _ _ (fun e he => ?_) fun f hf => ?_
  · simp [n.isComment_childEntries (Entry.mem_sort.mp he)]
  · simp [n.isComment_orphanEntries (Entry.mem_sort.mp hf)]

theorem number?_orphanEntries : n.orphanEntries.filterMap Entry.number? = [] := by
  simp [orphanEntries, Entry.number?]

theorem number?_childEntries :
    n.childEntries.filterMap Entry.number? = List.range n.children.length := by
  have h : (fun c : Node × Nat => Entry.number? (.child c.2 c.1)) = fun c => some c.2 := rfl
  rw [childEntries, List.filterMap_map]
  simp only [Function.comp_def, h, List.filterMap_eq_map']
  rw [List.zipIdx_map_snd, List.range_eq_range']

theorem nodup_number?_merged : (n.merged.filterMap Entry.number?).Nodup := by
  have h := n.merged_perm.filterMap Entry.number?
  rw [List.filterMap_append, number?_childEntries, number?_orphanEntries, List.append_nil] at h
  exact h.nodup_iff.mpr List.nodup_range

theorem number?_of_isComment {e : Entry} (he : e ∈ n.merged) (hc : e.isComment = true) :
    e.number? = none := by
  rcases List.mem_append.mp (n.merged_perm.mem_iff.mp he) with h | h
  · simp [n.isComment_childEntries h] at hc
  · obtain ⟨c, -, rfl⟩ := List.mem_map.mp h
    rfl

theorem runBefore_merged (i : Nat) :
    Entry.runBefore n.merged i = (n.orphansBefore i).map .orphan := by
  refine (Entry.map_orphan_comments fun e he => n.number?_of_isComment ?_
    (Entry.isComment_of_mem_runBefore he)).symm
  exact (List.takeWhile_sublist _).mem ((List.rtakeWhile_suffix _ _).mem he)

theorem runAtEnd_merged : Entry.runAtEnd n.merged = n.orphansAtEnd.map .orphan := by
  refine (Entry.map_orphan_comments fun e he => n.number?_of_isComment ?_
    (Entry.isComment_of_mem_runAtEnd he)).symm
  exact (List.rtakeWhile_suffix _ _).mem he

/-- A child with the orphans before it. -/
def led : Entry → List Entry
  | .child i c => (n.orphansBefore i).map .orphan ++ [.child i c]
  | .orphan c => [.orphan c]

/-- The merged list is the children as they start, each with the orphans before it, and then the
orphans at the end. -/
theorem merged_eq_led :
    n.merged = (Entry.sort n.childEntries).flatMap n.led ++ n.orphansAtEnd.map .orphan := by
  have hplain : ∀ e ∈ n.merged, e.number?.isSome → e.isComment = false := by
    intro e he hnum
    by_contra hc
    rw [n.number?_of_isComment he (by simpa using hc)] at hnum
    simp at hnum
  have h := Entry.eq_runs n.nodup_number?_merged hplain
  rw [n.filter_merged, n.runAtEnd_merged] at h
  refine h.trans (congrArg (· ++ _) (List.flatMap_congr fun e _ => ?_))
  cases e with
  | child i c => simp [Entry.number?, led, n.runBefore_merged]
  | orphan c => rfl

/-- Children that start in the order of their numbers stay in that order. -/
theorem merged_eq_of_sorted (h : n.childEntries.Pairwise fun e f => e.pos ≤ f.pos) :
    n.merged = n.childEntries.flatMap n.led ++ n.orphansAtEnd.map .orphan := by
  have hm := n.merged_eq_led
  rwa [Entry.sort_eq_self h] at hm

theorem comments_led (es : List Entry) (h : ∀ e ∈ es, e ∈ n.childEntries) :
    Entry.comments (es.flatMap n.led) = (es.filterMap Entry.number?).flatMap n.orphansBefore := by
  induction es with
  | nil => rfl
  | cons e es ih =>
    obtain ⟨i, c, hc, rfl⟩ := n.mem_childEntries.mp (h e (List.mem_cons_self ..))
    have hplain : Entry.comment? (.child i c) = none :=
      Entry.comment?_eq_none (isComment_of_mem_children (List.mem_of_getElem? hc))
    have ih := ih fun f hf => h f (List.mem_cons_of_mem _ hf)
    have hself : Entry.comments [.child i c] = [] := by simp [Entry.comments, hplain]
    simp only [List.flatMap_cons, led, Entry.comments_append, Entry.comments_map_orphan, hself, ih]
    simp [Entry.number?]

theorem comments_merged : (Entry.comments n.merged).Perm n.orphans := by
  have h := n.merged_perm.filterMap Entry.comment?
  have hchild : n.childEntries.filterMap Entry.comment? = [] :=
    List.filterMap_eq_nil_iff.mpr fun e he => Entry.comment?_eq_none (n.isComment_childEntries he)
  rw [List.filterMap_append, hchild, List.nil_append] at h
  exact h.trans (.of_eq (Entry.comments_map_orphan n.orphans))

/-- Every orphan is in one run: before one of the children, or at the end. -/
theorem orphans_perm_runs :
    n.orphans.Perm ((List.range n.children.length).flatMap n.orphansBefore ++ n.orphansAtEnd) := by
  have hruns := congrArg Entry.comments n.merged_eq_led
  rw [Entry.comments_append, Entry.comments_map_orphan,
    n.comments_led _ fun e he => Entry.mem_sort.mp he] at hruns
  have hnum := ((Entry.sort_perm n.childEntries).filterMap Entry.number?).flatMap_right
    n.orphansBefore
  rw [n.number?_childEntries] at hnum
  exact n.comments_merged.symm.trans ((List.Perm.of_eq hruns).trans (hnum.append_right _))

theorem orphansAtEnd_eq_nil (h : n.orphans = []) : n.orphansAtEnd = [] := by
  have hruns := n.orphans_perm_runs
  rw [h] at hruns
  exact (List.append_eq_nil_iff.mp hruns.nil_eq.symm).2

end Node

namespace Doc

/-- Orphans put back in place. -/
def orphans (cs : List Comment) : List Doc := cs.map (.comment true)

theorem trailing_eq (n : Node) : trailing n = orphans n.orphansAtEnd := by
  have h := Entry.slice_trailingRun n.merged
  rw [orphans, Node.orphansAtEnd, ← h, Entry.comments, List.filterMap_map, List.map_filterMap,
    trailing]
  refine List.filterMap_congr fun e _ => ?_
  simp only [Function.comp_apply, Entry.comment?]
  cases e.1.node <;> rfl

/-- Comments at their positions, as `leading` lists them. -/
theorem map_comments {es : List (Entry × Nat)} (h : ∀ e ∈ es.map Prod.fst, e.isComment = true)
    (other : Node → Nat → Doc) :
    (es.map fun (e, j) =>
      match e.node with
      | .comment c => .comment true c
      | n => other n j) = orphans (Entry.comments (es.map Prod.fst)) := by
  induction es with
  | nil => rfl
  | cons e es ih =>
    simp only [List.map_cons, List.mem_cons, forall_eq_or_imp] at h
    obtain ⟨c, hc⟩ := (Entry.isComment_iff e.1).mp h.1
    rw [List.map_cons, ih h.2]
    simp [hc, orphans, Entry.comments, Entry.comment?]

/-- Before a child of the node that the index gives as its parent stand the orphans before it. -/
theorem leading_eq {ix : ParentIndex} {path : Path} {i : Nat} {parent : Node}
    (hparent : ix.parentOf (path ++ [i]) = some parent) (hi : i < parent.children.length)
    (n : Node) : leading ix (path ++ [i]) n = orphans (parent.orphansBefore i) := by
  have hmem : Entry.child i parent.children[i] ∈ parent.merged := by
    refine parent.merged_perm.mem_iff.mpr (List.mem_append_left _ ?_)
    exact parent.mem_childEntries.mpr ⟨i, _, List.getElem?_eq_getElem hi, rfl⟩
  have hlt : parent.merged.findIdx (Entry.isChild i) < parent.merged.length :=
    List.findIdx_lt_length_of_exists ⟨_, hmem, by simp [Entry.isChild]⟩
  have hfind : parent.merged.findIdx? (Entry.isChild i) =
      some (parent.merged.findIdx (Entry.isChild i)) :=
    List.findIdx?_eq_some_iff_findIdx_eq.mpr ⟨hlt, rfl⟩
  have htake : parent.merged.take (parent.merged.findIdx (Entry.isChild i)) =
      parent.merged.takeWhile fun e => !e.isChild i := by
    rw [List.takeWhile_eq_take_findIdx_not]
    simp
  have hslice := Entry.slice_leadingRun (Nat.le_of_lt hlt)
  rw [htake] at hslice
  simp only [leading, hparent, List.getLastD_concat, hfind]
  refine (map_comments ?_ fun other j => .abort (.commentRun n.name n.range other.name j _)).trans ?_
  · rw [hslice]
    exact fun e he => List.mem_rtakeWhile_imp he
  · rw [hslice]
    rfl

end Doc

end JavaText
