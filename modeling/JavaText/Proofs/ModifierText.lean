import Mathlib.Data.List.TakeWhile
import Mathlib.Data.List.Forall2
import Mathlib.Tactic.IntervalCases
import JavaText.Grammar.Word
import JavaText.Proofs.Digits

/-!
# Written modifiers are read back

The parts of a written set of modifiers hold no blanks and no bars, so cutting it at the bars and
trimming gives them again; each part gives its own bits, and together they are all the bits of the set,
the nameless ones included (`Modifiers.read?_text`).
-/

namespace JavaText

namespace Text

/-- A part that stays whole between bars and blanks. -/
structure Tight (cs : List Char) : Prop where
  ne_nil : cs ≠ []
  bar : '|' ∉ cs
  blank : ∀ c ∈ cs, isBlank c = false

theorem trim_tight {cs : List Char} (h : Tight cs) {pre post : List Char}
    (hpre : ∀ c ∈ pre, isBlank c = true) (hpost : ∀ c ∈ post, isBlank c = true) :
    trim (pre ++ cs ++ post) = cs := by
  have hfront : ∀ ds : List Char, (cs ++ ds).dropWhile isBlank = cs ++ ds := by
    intro ds
    obtain ⟨c, rest, rfl⟩ := List.exists_cons_of_ne_nil h.ne_nil
    rw [List.cons_append, List.dropWhile_cons_of_neg (by simp [h.blank c (List.mem_cons_self ..)])]
  have hback : cs.reverse.dropWhile isBlank = cs.reverse := by
    obtain ⟨c, rest, hc⟩ := List.exists_cons_of_ne_nil (l := cs.reverse) (by simpa using h.ne_nil)
    have hmem : c ∈ cs := List.mem_reverse.mp (hc ▸ List.mem_cons_self ..)
    rw [hc, List.dropWhile_cons_of_neg (by simp [h.blank c hmem])]
  have hend : ∀ c ∈ post.reverse, isBlank c = true := fun c hc => hpost c (List.mem_reverse.mp hc)
  rw [trim, List.append_assoc, List.dropWhile_append_of_pos hpre, hfront, List.reverse_append,
    List.dropWhile_append_of_pos hend, hback, List.reverse_reverse]

/-- Cut at the bars and trimmed, the joined parts come apart again. -/
theorem trim_splitOn_intercalate {cs : List Char} {css : List (List Char)}
    (h : ∀ ds ∈ cs :: css, Tight ds) {pre : List Char} (hpre : ∀ c ∈ pre, isBlank c = true)
    (hbar : '|' ∉ pre) :
    ((pre ++ [' ', '|', ' '].intercalate (cs :: css)).splitOn '|').map trim = cs :: css := by
  have hcs := h cs (List.mem_cons_self ..)
  induction css generalizing cs pre with
  | nil =>
    have hnot : '|' ∉ pre ++ cs := by simp [hbar, hcs.bar]
    have htrim : trim (pre ++ cs ++ []) = cs := trim_tight hcs hpre (by simp)
    rw [List.append_nil] at htrim
    rw [List.intercalate_singleton, List.splitOn_eq_singleton hnot, List.map_singleton, htrim]
  | cons ds css ih =>
    have hnot : '|' ∉ pre ++ cs ++ [' '] := by simp [hbar, hcs.bar]
    have htail : ∀ es ∈ ds :: css, Tight es := fun es hes => h es (List.mem_cons_of_mem _ hes)
    have hrest :
        (([' '] ++ [' ', '|', ' '].intercalate (ds :: css)).splitOn '|').map trim = ds :: css :=
      ih htail (by simp [isBlank]) (by simp) (htail ds (List.mem_cons_self ..))
    have hsplit : pre ++ [' ', '|', ' '].intercalate (cs :: ds :: css) =
        (pre ++ cs ++ [' ']) ++ '|' :: ([' '] ++ [' ', '|', ' '].intercalate (ds :: css)) := by
      rw [List.intercalate_cons_cons]
      simp
    rw [hsplit, List.splitOn_append_cons_self_of_not_mem hnot, List.map_cons, hrest,
      trim_tight hcs hpre (by simp [isBlank])]

theorem Tight.exists_mem {cs : List Char} (h : Tight cs) : ∃ c ∈ cs, isBlank c = false := by
  obtain ⟨c, hc⟩ := List.exists_mem_of_ne_nil _ h.ne_nil
  exact ⟨c, hc, h.blank c hc⟩

theorem trim_ne_nil {cs : List Char} (h : ∃ c ∈ cs, isBlank c = false) : trim cs ≠ [] := by
  obtain ⟨c, hc, hblank⟩ := h
  intro hnil
  have hrest := List.dropWhile_eq_nil_iff.mp (List.reverse_eq_nil_iff.mp hnil)
  rw [← List.takeWhile_append_dropWhile (p := isBlank) (l := cs), List.mem_append] at hc
  rcases hc with hc | hc
  · exact Bool.false_ne_true (hblank.symm.trans (List.mem_takeWhile_imp hc))
  · exact Bool.false_ne_true (hblank.symm.trans (hrest c (List.mem_reverse.mpr hc)))

theorem trim_intercalate_ne_nil {cs : List Char} (h : ∃ c ∈ cs, isBlank c = false) (sep : List Char)
    (css : List (List Char)) : trim (sep.intercalate (cs :: css)) ≠ [] := by
  obtain ⟨c, hc, hblank⟩ := h
  refine trim_ne_nil ⟨c, ?_, hblank⟩
  cases css with
  | nil => rwa [List.intercalate_singleton]
  | cons ds css =>
    rw [List.intercalate_cons_cons]
    exact List.mem_append_left _ (List.mem_append_left _ hc)

end Text

namespace Modifiers

open Text (Tight)

theorem tight_name {f : Flag} (h : f ∈ flags) : Tight f.name.toList := by
  have hall : (flags.all fun f => !f.name.toList.isEmpty &&
      f.name.toList.all fun c => c != '|' && !Text.isBlank c) = true := by decide
  have hname := List.all_eq_true.mp hall f h
  rw [Bool.and_eq_true, List.all_eq_true] at hname
  obtain ⟨hne, hchars⟩ := hname
  refine ⟨?_, ?_, ?_⟩
  · intro hnil
    rw [hnil] at hne
    cases hne
  · intro hmem
    have hbar := hchars '|' hmem
    rw [Bool.and_eq_true] at hbar
    exact bne_iff_ne.mp hbar.1 rfl
  · intro c hc
    have hblank := hchars c hc
    rw [Bool.and_eq_true, Bool.not_eq_true'] at hblank
    exact hblank.2

theorem part?_name {f : Flag} (h : f ∈ flags) : part? f.name.toList = some (ofFlag f) := by
  have hall : ∀ f ∈ flags, part? f.name.toList = some (ofFlag f) := by decide
  exact hall f h

theorem toList_hex (w : BitVec 16) :
    ("0x" ++ hexDigits w).toList = '0' :: 'x' :: Nat.toDigits 16 w.toNat := by
  simp [hexDigits]

theorem tight_word {cs : List Char} (h : ∀ c ∈ cs, c ≠ '|' ∧ Text.isBlank c = false) :
    Tight ('0' :: 'x' :: cs) := by
  have hchar : ∀ c ∈ '0' :: 'x' :: cs, c ≠ '|' ∧ Text.isBlank c = false := by
    intro c hc
    rcases List.mem_cons.mp hc with rfl | hc
    · decide
    rcases List.mem_cons.mp hc with rfl | hc
    · decide
    exact h c hc
  exact ⟨List.cons_ne_nil _ _, fun hbar => (hchar _ hbar).1 rfl, fun c hc => (hchar c hc).2⟩

theorem tight_hex (w : BitVec 16) : Tight ("0x" ++ hexDigits w).toList := by
  have hdigits : ∀ d : Fin 16, Nat.digitChar d ≠ '|' ∧ Text.isBlank (Nat.digitChar d) = false := by
    decide
  rw [toList_hex]
  refine tight_word fun c hc => ?_
  obtain ⟨d, hd, rfl⟩ := Text.mem_toDigits hc
  exact hdigits ⟨d, hd⟩

theorem hexWord?_of_value {cs : List Char} {n : Nat} (hne : cs ≠ []) (hplus : '+' ∉ cs)
    (hvalue : Text.hexValue? 0 cs = some n) (hn : n < 2 ^ 16) :
    hexWord? cs = some (BitVec.ofNat 16 n) := by
  unfold hexWord?
  split
  · exact absurd (List.mem_cons_self ..) hplus
  · simp only [List.isEmpty_iff, hne, if_false, hvalue, Option.bind_some]
    exact if_pos hn

theorem hexWord?_toDigits (w : BitVec 16) : hexWord? (Nat.toDigits 16 w.toNat) = some w := by
  have hplus : '+' ∉ Nat.toDigits 16 w.toNat := by
    intro hmem
    obtain ⟨d, hd, hchar⟩ := Text.mem_toDigits hmem
    have hall : ∀ d : Fin 16, '+' ≠ Nat.digitChar d := by decide
    exact hall ⟨d, hd⟩ hchar
  rw [hexWord?_of_value Nat.toDigits_ne_nil hplus (Text.hexValue?_toDigits _) w.isLt,
    BitVec.ofNat_toNat, BitVec.setWidth_eq]

theorem part?_hex (w : BitVec 16) : part? ("0x" ++ hexDigits w).toList = some ⟨w⟩ := by
  rw [toList_hex, part?, hexWord?_toDigits]
  rfl

/-- The sets that the parts of a written set stand for. -/
def pieces (m : Modifiers) : List Modifiers :=
  (flags.filter m.has).map ofFlag ++ if m.nameless = 0 then [] else [⟨m.nameless⟩]

theorem parts_spec (m : Modifiers) :
    List.Forall₂ (fun p n => Tight p.toList ∧ part? p.toList = some n) m.parts m.pieces := by
  refine List.rel_append (List.forall₂_map_left_iff.mpr (List.forall₂_map_right_iff.mpr ?_)) ?_
  · refine List.forall₂_same.mpr fun f hf => ?_
    have hmem := (List.mem_filter.mp hf).1
    exact ⟨tight_name hmem, part?_name hmem⟩
  · split
    · exact .nil
    · exact .cons ⟨tight_hex _, part?_hex _⟩ .nil

theorem getLsbD_foldl_union (ns : List Modifiers) (m : Modifiers) (i : Nat) :
    (ns.foldl union m).bits.getLsbD i = (m.bits.getLsbD i || ns.any fun n => n.bits.getLsbD i) := by
  induction ns generalizing m with
  | nil => simp
  | cons n ns ih => rw [List.foldl_cons, ih, union, BitVec.getLsbD_or, List.any_cons, Bool.or_assoc]

theorem getLsbD_ofFlag (f : Flag) {i : Nat} (hi : i < 16) :
    (ofFlag f).bits.getLsbD i = (f.bit == i) := by
  rw [ofFlag, BitVec.getLsbD_twoPow]
  by_cases h : f.bit = i
  · simp [h, hi]
  · simp [h]

/-- The pieces make up the set. -/
theorem foldl_union_pieces (m : Modifiers) : m.pieces.foldl union empty = m := by
  have hnameless : (if m.nameless = 0 then [] else [(⟨m.nameless⟩ : Modifiers)]).foldl union
      (((flags.filter m.has).map ofFlag).foldl union empty) =
        (((flags.filter m.has).map ofFlag).foldl union empty).union ⟨m.nameless⟩ := by
    split
    · next hzero => simp [union, hzero]
    · rfl
  have hbits : (m.pieces.foldl union empty).bits = m.bits := by
    refine BitVec.eq_of_getLsbD_eq fun i hi => ?_
    rw [pieces, List.foldl_append, hnameless, union, BitVec.getLsbD_or, getLsbD_foldl_union,
      List.any_map, List.any_filter, nameless, BitVec.getLsbD_and]
    simp only [Function.comp_def, getLsbD_ofFlag _ hi, has]
    -- each bit has a flag, or is one of the nameless ones
    interval_cases i <;> simp [flags, empty]
  exact congrArg Modifiers.mk hbits

theorem foldlM_part? {css : List (List Char)} {ns : List Modifiers}
    (h : List.Forall₂ (fun cs n => part? cs = some n) css ns) (m : Modifiers) :
    css.foldlM (fun m cs => (part? cs).map m.union) m = some (ns.foldl union m) := by
  induction h generalizing m with
  | nil => rfl
  | cons h _ ih =>
    rw [List.foldlM_cons, h, List.foldl_cons]
    exact ih _

/-- A text whose parts can be read gives the sets of the parts united. -/
theorem read?_of_parts {s : String} {css : List (List Char)} {ns : List Modifiers}
    (hcut : (s.toList.splitOn '|').map Text.trim = css) (hblank : Text.trim s.toList ≠ [])
    (h : List.Forall₂ (fun cs n => part? cs = some n) css ns) :
    read? s = some (ns.foldl union empty) := by
  have hfold := foldlM_part? h empty
  rw [← hcut, List.foldlM_map] at hfold
  rw [read?, if_neg, hfold]
  rwa [List.isEmpty_iff]

/-- Every set is read back from its written form. -/
theorem read?_text (m : Modifiers) : read? m.text = some m := by
  obtain ⟨htight, -⟩ := (List.forall₂_and_left _ _).mp m.parts_spec
  have hparts : List.Forall₂ (fun cs n => part? cs = some n) (m.parts.map String.toList) m.pieces :=
    List.forall₂_map_left_iff.mpr (m.parts_spec.imp fun _ _ h => h.2)
  have htext : m.text.toList = [' ', '|', ' '].intercalate (m.parts.map String.toList) :=
    String.toList_intercalate
  cases hps : m.parts with
  | nil =>
    have hempty := foldlM_part? hparts empty
    rw [hps, foldl_union_pieces] at hempty
    rw [read?, htext, hps]
    exact hempty
  | cons p ps =>
    rw [hps] at htight hparts htext
    have hcut : (([] ++ [' ', '|', ' '].intercalate ((p :: ps).map String.toList)).splitOn '|').map
        Text.trim = (p :: ps).map String.toList :=
      Text.trim_splitOn_intercalate (by simpa [List.forall_mem_map] using htight) (by simp) (by simp)
    rw [List.nil_append, ← htext] at hcut
    rw [read?_of_parts hcut _ hparts, foldl_union_pieces]
    rw [htext]
    exact Text.trim_intercalate_ne_nil (htight p (List.mem_cons_self ..)).exists_mem _ _

end Modifiers

end JavaText
