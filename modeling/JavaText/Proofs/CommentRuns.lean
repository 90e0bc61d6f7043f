import Mathlib.Data.List.Pairwise
import JavaText.Proofs.Runs
import JavaText.Tree.Build

/-!
# The comment runs of a node

A leading run is found by looking back from its entry and the trailing run by looking back from the end,
each without regard to the others. Still they fit together: read one after the other, the runs give the
comments of the list at their positions, in order and without gaps (`Entry.flatMap_slice_runs`). That
they are disjoint and leave out no comment follows from it.
-/

namespace JavaText

namespace Span

/-- A position is in a stretch. -/
instance : Membership Nat Span where
  mem s j := s.start ≤ j ∧ j < s.stop

theorem mem_slice {s : Span} {xs : List Entry} {x : Entry} {j : Nat} :
    (x, j) ∈ s.slice xs ↔ j ∈ s ∧ xs[j]? = some x := by
  have hget : ∀ i, (s.slice xs)[i]? =
      if s.start + i < s.stop then xs[s.start + i]?.map fun y => (y, s.start + i) else none := by
    intro i
    rw [slice, List.getElem?_drop, List.getElem?_take]
    simp
  rw [List.mem_iff_getElem?]
  constructor
  · rintro ⟨i, hi⟩
    rw [hget] at hi
    split at hi
    · next hlt =>
      obtain ⟨y, hy, heq⟩ := Option.map_eq_some_iff.mp hi
      cases heq
      exact ⟨⟨Nat.le_add_right _ _, hlt⟩, hy⟩
    · cases hi
  · rintro ⟨⟨hstart, hstop⟩, hx⟩
    refine ⟨j - s.start, ?_⟩
    rw [hget, Nat.add_sub_cancel' hstart, if_pos hstop, hx]
    rfl

end Span

namespace Entry

/-- Entries that start together keep their order. -/
theorem filter_sort (es : List Entry) (p : UInt32) :
    (sort es).filter (fun e => e.pos == p) = es.filter fun e => e.pos == p := by
  have htied : (es.filter fun e => e.pos == p).Pairwise fun e f => e.pos ≤ f.pos := by
    refine List.pairwise_of_forall_mem_list fun e he f hf => ?_
    have hep := (List.mem_filter.mp he).2
    have hfp := (List.mem_filter.mp hf).2
    rw [eq_of_beq hep, eq_of_beq hfp]
    exact UInt32.le_refl p
  have hsub : (es.filter fun e => e.pos == p).Sublist (sort es) := by
    rw [sort_eq_insertionSort]
    exact List.sublist_insertionSort htied List.filter_sublist
  have hfilter := hsub.filter fun e => e.pos == p
  simp only [List.filter_filter, Bool.and_self] at hfilter
  exact (hfilter.eq_of_length ((sort_perm es).filter _).length_eq.symm).symm

/-- The leading runs, one for each entry that is no comment. -/
def leadingRuns (es : List Entry) : List Span :=
  (es.zipIdx.filter fun e => !e.1.isComment).map fun e => leadingRun es e.2

def runs (es : List Entry) : List Span := leadingRuns es ++ [trailingRun es]

theorem leadingRun_concat {es : List Entry} {i : Nat} (hi : i ≤ es.length) (e : Entry) :
    leadingRun (es ++ [e]) i = leadingRun es i := by
  rw [leadingRun, leadingRun, List.take_append_of_le_length hi]

theorem leadingRun_length (es : List Entry) (e : Entry) :
    leadingRun (es ++ [e]) es.length = trailingRun es := by
  rw [leadingRun, trailingRun, List.take_left]

theorem trailingRun_concat_comment {e : Entry} (h : e.isComment = true) (es : List Entry) :
    trailingRun (es ++ [e]) = ⟨(trailingRun es).start, es.length + 1⟩ := by
  rw [trailingRun, trailingRun, List.reverse_append, List.reverse_singleton, List.singleton_append,
    List.takeWhile_cons_of_pos h, List.length_append, List.length_singleton, List.length_cons,
    Nat.add_sub_add_right]

theorem trailingRun_concat_child {e : Entry} (h : e.isComment = false) (es : List Entry) :
    trailingRun (es ++ [e]) = ⟨es.length + 1, es.length + 1⟩ := by
  rw [trailingRun, List.reverse_append, List.reverse_singleton, List.singleton_append,
    List.takeWhile_cons_of_neg (by simp [h]), List.length_append]
  rfl

theorem leadingRuns_concat (es : List Entry) (e : Entry) :
    leadingRuns (es ++ [e]) = leadingRuns es ++ if e.isComment then [] else [trailingRun es] := by
  have hold : ((es.zipIdx.filter fun f => !f.1.isComment).map fun f => leadingRun (es ++ [e]) f.2) =
      leadingRuns es := by
    refine List.map_congr_left fun f hf => leadingRun_concat ?_ e
    have hlt := List.snd_lt_of_mem_zipIdx (List.mem_filter.mp hf).1
    omega
  rw [leadingRuns, List.zipIdx_append, List.filter_append, List.map_append, hold]
  refine congrArg _ ?_
  cases he : e.isComment with
  | true => simp [he]
  | false => simp [he, leadingRun_length]

theorem stop_le_of_mem_runs {es : List Entry} {s : Span} (h : s ∈ runs es) : s.stop ≤ es.length := by
  rcases List.mem_append.mp h with h | h
  · obtain ⟨e, he, rfl⟩ := List.mem_map.mp h
    have hlt := List.snd_lt_of_mem_zipIdx (List.mem_filter.mp he).1
    show e.2 ≤ es.length
    omega
  · rw [List.mem_singleton.mp h]
    exact Nat.le_refl _

theorem slice_concat {s : Span} {es : List Entry} (h : s.stop ≤ es.length) (e : Entry) :
    s.slice (es ++ [e]) = s.slice es := by
  rw [Span.slice, Span.slice, List.zipIdx_append, List.take_append_of_le_length (by simpa using h)]

theorem slice_concat_last {i : Nat} {es : List Entry} (h : i ≤ es.length) (e : Entry) :
    (Span.mk i (es.length + 1)).slice (es ++ [e]) = (Span.mk i es.length).slice es ++ [(e, es.length)] := by
  have hwhole : (es ++ [e]).zipIdx.take (es.length + 1) = es.zipIdx ++ [(e, es.length)] := by
    rw [List.take_of_length_le (by simp), List.zipIdx_append]
    simp
  have hold : es.zipIdx.take es.length = es.zipIdx := List.take_of_length_le (by simp)
  simp only [Span.slice, hwhole, hold]
  exact List.drop_append_of_le_length (by simpa using h)

/-- One after the other, the runs give the comments of the list with their positions. -/
theorem flatMap_slice_runs (es : List Entry) :
    ((runs es).flatMap fun s => s.slice es) = es.zipIdx.filter fun e => e.1.isComment := by
  -- A new last entry lengthens the trailing run, or closes it as the leading run before itself.
  induction es using List.reverseRecOn with
  | nil => rfl
  | append_singleton es e ih =>
    have hold : ∀ ss ⊆ runs es, (ss.flatMap fun s => s.slice (es ++ [e])) =
        ss.flatMap fun s => s.slice es := fun ss hss =>
      List.flatMap_congr fun s hs => slice_concat (stop_le_of_mem_runs (hss hs)) e
    have hfilter : (es ++ [e]).zipIdx.filter (fun f => f.1.isComment) =
        ((runs es).flatMap fun s => s.slice es) ++ if e.isComment then [(e, es.length)] else [] := by
      rw [List.zipIdx_append, List.filter_append, ih]
      simp [List.filter_cons]
    rw [hfilter]
    cases he : e.isComment with
    | true =>
      have hstart : (trailingRun es).start ≤ es.length := Nat.sub_le _ _
      rw [runs, leadingRuns_concat, he, if_pos rfl, if_pos rfl, List.append_nil,
        trailingRun_concat_comment he, List.flatMap_append, hold _ (List.subset_append_left _ _),
        List.flatMap_singleton, slice_concat_last hstart, runs, List.flatMap_append,
        List.flatMap_singleton, List.append_assoc]
      rfl
    | false =>
      have hnone : (Span.mk (es.length + 1) (es.length + 1)).slice (es ++ [e]) = [] :=
        List.drop_eq_nil_of_le (by simp)
      rw [runs, leadingRuns_concat, he, if_neg Bool.false_ne_true, if_neg Bool.false_ne_true,
        trailingRun_concat_child he, List.flatMap_append, List.flatMap_singleton, hnone,
        ← runs, hold _ (List.Subset.refl _)]

theorem mem_runs_iff {es : List Entry} {e : Entry} {j : Nat} (he : es[j]? = some e) :
    (∃ s ∈ runs es, j ∈ s) ↔ e.isComment = true := by
  have hmem : (∃ s ∈ runs es, (e, j) ∈ s.slice es) ↔ (e, j) ∈ es.zipIdx ∧ e.isComment = true := by
    rw [← List.mem_flatMap, flatMap_slice_runs, List.mem_filter]
  simpa [Span.mem_slice, he, List.mem_zipIdx_iff_getElem?] using hmem

theorem exists_of_mem_runs {es : List Entry} {s : Span} (hs : s ∈ runs es) {j : Nat} (hj : j ∈ s) :
    ∃ e, es[j]? = some e :=
  ⟨_, List.getElem?_eq_getElem (Nat.lt_of_lt_of_le hj.2 (stop_le_of_mem_runs hs))⟩

theorem disjoint_runs (es : List Entry) : (runs es).Pairwise fun s t => ∀ j ∈ s, j ∉ t := by
  have hzip : es.zipIdx.Nodup := by
    refine .of_map Prod.snd ?_
    rw [List.zipIdx_map_snd]
    exact List.nodup_range'
  have hnodup : ((runs es).flatMap fun s => s.slice es).Nodup := by
    rw [flatMap_slice_runs]
    exact hzip.filter _
  refine (List.nodup_flatMap.mp hnodup).2.imp_of_mem fun {s t} hs _ hdisjoint j hjs hjt => ?_
  obtain ⟨e, he⟩ := exists_of_mem_runs hs hjs
  exact hdisjoint (Span.mem_slice.mpr ⟨hjs, he⟩) (Span.mem_slice.mpr ⟨hjt, he⟩)

theorem existsUnique_run {es : List Entry} {e : Entry} {j : Nat} (he : es[j]? = some e)
    (hc : e.isComment = true) : ∃! s, s ∈ runs es ∧ j ∈ s := by
  obtain ⟨s, hs, hj⟩ := (mem_runs_iff he).mpr hc
  refine ⟨s, ⟨hs, hj⟩, ?_⟩
  rintro t ⟨ht, hjt⟩
  by_contra hne
  have hsymm : Std.Symm fun s t : Span => ∀ j ∈ s, j ∉ t := ⟨fun s t h j hjt hjs => h j hjs hjt⟩
  exact (disjoint_runs es).forall ht hs hne j hjt hj

theorem comments_slice_runs (es : List Entry) :
    ((runs es).flatMap fun s => comments ((s.slice es).map Prod.fst)) = comments es := by
  have hslice : ∀ s : Span, comments ((s.slice es).map Prod.fst) =
      (s.slice es).filterMap fun e => e.1.comment? := fun s => List.filterMap_map ..
  have hplain : ∀ e : Entry × Nat, (if e.1.isComment then e.1.comment? else none) = e.1.comment? := by
    intro e
    split
    · rfl
    · next h => exact (comment?_eq_none (by simpa using h)).symm
  simp only [hslice]
  rw [← List.filterMap_flatMap, flatMap_slice_runs, List.filterMap_filter]
  simp only [hplain]
  rw [comments, ← List.zipIdx_map_fst 0 es, List.filterMap_map, List.zipIdx_map_fst]
  rfl

end Entry

namespace Node

variable (n : Node)

theorem map_node_entries :
    (n.childEntries ++ n.orphanEntries).map Entry.node = n.children ++ n.orphans.map .comment := by
  have hchildren : n.childEntries.map Entry.node = n.children := by
    rw [childEntries, List.map_map]
    exact List.zipIdx_map_fst 0 n.children
  have horphans : n.orphanEntries.map Entry.node = n.orphans.map .comment := by
    rw [orphanEntries, List.map_map]
    rfl
  rw [List.map_append, hchildren, horphans]

/-- The merged list of a node has its children and then its orphans, sorted by where they start, and
what starts together stays in that order. Its runs hold comments only, do not overlap, and every
comment is in exactly one of them; so the runs have every orphan once. -/
theorem merged_runs_partition :
    (n.childEntries ++ n.orphanEntries).map Entry.node = n.children ++ n.orphans.map .comment ∧
    n.merged.Perm (n.childEntries ++ n.orphanEntries) ∧
    (n.merged.Pairwise fun e f => e.pos ≤ f.pos) ∧
    (∀ p, n.merged.filter (fun e => e.pos == p) =
      (n.childEntries ++ n.orphanEntries).filter fun e => e.pos == p) ∧
    (∀ s ∈ Entry.runs n.merged, ∀ j ∈ s, ∃ e, n.merged[j]? = some e ∧ e.isComment = true) ∧
    ((Entry.runs n.merged).Pairwise fun s t => ∀ j ∈ s, j ∉ t) ∧
    (∀ j e, n.merged[j]? = some e → e.isComment = true →
      ∃! s, s ∈ Entry.runs n.merged ∧ j ∈ s) ∧
    ((Entry.runs n.merged).flatMap fun s =>
      Entry.comments ((s.slice n.merged).map Prod.fst)).Perm n.orphans := by
  refine ⟨n.map_node_entries, n.merged_perm, ?_, ?_, ?_, Entry.disjoint_runs _, ?_, ?_⟩
  · exact Entry.sort_pairwise _
  · intro p
    exact Entry.filter_sort _ p
  · intro s hs j hj
    obtain ⟨e, he⟩ := Entry.exists_of_mem_runs hs hj
    exact ⟨e, he, (Entry.mem_runs_iff he).mp ⟨s, hs, hj⟩⟩
  · intro j e he hc
    exact Entry.existsUnique_run he hc
  · rw [Entry.comments_slice_runs]
    exact n.comments_merged

/-- Two imports, a comment that starts where the first one does, another behind it, and a last one
that is listed first. -/
def remarkedImports : Node :=
  .tree <| (Build.compilationUnit none
    [((Build.importOf "a" false false).spanning ⟨10, 19⟩).child,
      ((Build.importOf "b" false false).spanning ⟨30, 39⟩).child] []).withOrphans
    [{ kind := .line, content := "tail", range := ⟨40, 46⟩ },
      { kind := .block, content := "tied", range := ⟨10, 18⟩ },
      { kind := .line, content := "between", range := ⟨20, 29⟩ }]

theorem merged_runs_partition_remarkedImports :
    Entry.runs remarkedImports.merged = [⟨0, 0⟩, ⟨1, 3⟩, ⟨4, 5⟩] ∧
      (remarkedImports.merged[1]?.map fun e => (e.pos, e.isComment)) = some (10, true) ∧
      ∃! s, s ∈ Entry.runs remarkedImports.merged ∧ 1 ∈ s :=
  ⟨by decide, by decide, (merged_runs_partition remarkedImports).2.2.2.2.2.2.1 1 _ rfl rfl⟩

end Node

end JavaText
