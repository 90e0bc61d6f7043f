import Mathlib.Data.List.Basic
import Mathlib.Data.List.TakeWhile
import JavaText.Command.Render

/-!
# Names of files

A path is what it goes through: the root or a leading dot, then the parts between its slashes that count
(`PathText.components`). Two paths are the same if they go through the same.

The file for an input goes right into its directory and is named by the stem of the input and the
extension of the flavor (`components_outputPath`). No stem is empty and no extension has a dot, so the
last dot of that name is the one put there, whatever dots the stem has itself.
-/

namespace JavaText

namespace Text

theorem not_mem_of_mem_splitOn {sep : Char} {cs part : List Char} (h : part ∈ cs.splitOn sep) :
    sep ∉ part := by
  induction cs generalizing part with
  | nil =>
    obtain rfl : part = [] := by simpa using h
    exact List.not_mem_nil
  | cons c cs ih =>
    rw [List.splitOn_cons_eq_if_modifyHead] at h
    split at h
    · rcases List.mem_cons.mp h with rfl | h
      · exact List.not_mem_nil
      · exact ih h
    · next hne =>
      obtain ⟨first, rest, heq⟩ := List.exists_cons_of_ne_nil (List.splitOn_ne_nil sep cs)
      rw [heq] at h ih
      rcases List.mem_cons.mp h with rfl | h
      · rw [List.mem_cons, not_or]
        exact ⟨fun hsep => hne (beq_iff_eq.mpr hsep.symm), ih (List.mem_cons_self ..)⟩
      · exact ih (List.mem_cons_of_mem _ h)

end Text

namespace PathText

/-- A text that can be the name of a file. -/
structure IsName (name : String) : Prop where
  slash : '/' ∉ name.toList
  long : 2 < name.toList.length

theorem IsName.relative {name : String} (h : IsName name) : isAbsolute name = false := by
  rw [isAbsolute, beq_eq_false_iff_ne]
  exact fun hhead => h.slash (List.mem_of_head? hhead)

theorem IsName.ne_of_short {name : String} (h : IsName name) {cs : List Char} (hcs : cs.length ≤ 2) :
    name.toList ≠ cs := by
  rintro rfl
  exact absurd h.long (Nat.not_lt.mpr hcs)

theorem IsName.counts {name : String} (h : IsName name) : counts name.toList = true := by
  rw [PathText.counts, Bool.and_eq_true, bne_iff_ne, bne_iff_ne]
  exact ⟨h.ne_of_short (by decide), h.ne_of_short (by decide)⟩

theorem cutExtension_subset (name : List Char) : cutExtension name ⊆ name := by
  rw [cutExtension]
  split
  · exact List.Subset.refl name
  · intro c hc
    rw [List.mem_reverse] at hc
    have hsuffix := (List.drop_suffix 1 _).trans (List.dropWhile_suffix (· != '.') (l := name.reverse))
    exact List.mem_reverse.mp (hsuffix.subset hc)

theorem fileName?_mem {path : String} {name : List Char} (h : fileName? path = some name) :
    name ∈ parts path ∧ counts name = true := by
  rw [fileName?] at h
  split at h
  · cases h
  · next hlast =>
    split at h
    · cases h
    · cases h
      exact List.mem_filter.mp (List.mem_of_getLast? hlast)

end PathText

/-- The name of the file for an input with a given stem. -/
theorem isName_output {path stem : String} (h : PathText.stem? path = some stem) (flavor : Flavor) :
    PathText.IsName (stem ++ "." ++ flavor.extension) := by
  obtain ⟨name, hname, rfl⟩ := Option.map_eq_some_iff.mp h
  have hslash : '/' ∉ PathText.cutExtension name := fun hmem =>
    Text.not_mem_of_mem_splitOn (PathText.fileName?_mem hname).1 (PathText.cutExtension_subset name hmem)
  constructor
  · cases flavor <;> simp [Flavor.extension, hslash]
  · cases flavor <;> simp [Flavor.extension]

namespace PathText

/-- A path below a directory, as parts: those of the directory come first, less the empty one after a
slash at its end. -/
theorem join_parts (dir : String) :
    ∃ ps, (parts dir = ps ++ [[]] ∨ parts dir = ps ∧ ps ≠ []) ∧
      ∀ name, IsName name → parts (join dir name) = ps ++ [name.toList] := by
  have hlast : ∀ (cs : List Char) (name : String), IsName name →
      (cs ++ '/' :: name.toList).splitOn '/' = cs.splitOn '/' ++ [name.toList] := by
    intro cs name hname
    rw [List.splitOn_append_cons_self, List.splitOn_eq_singleton hname.slash]
  by_cases hempty : dir.isEmpty = true
  · refine ⟨[], .inl ?_, fun name hname => ?_⟩
    · rw [String.isEmpty_iff.mp hempty]
      rfl
    · rw [join, hname.relative, hempty]
      exact List.splitOn_eq_singleton hname.slash
  · by_cases hslash : (dir.toList.getLast? == some '/') = true
    · have hdir : dir.toList = dir.toList.dropLast ++ ['/'] :=
        (List.dropLast_append_getLast? _ (eq_of_beq hslash)).symm
      refine ⟨dir.toList.dropLast.splitOn '/', .inl ?_, fun name hname => ?_⟩
      · rw [parts, hdir, List.splitOn_append_cons_self, List.dropLast_concat]
        rfl
      · rw [join, hname.relative, Bool.false_or, if_neg hempty, if_pos hslash, parts,
          String.toList_append, hdir, List.append_assoc, List.dropLast_concat]
        exact hlast _ name hname
    · refine ⟨dir.toList.splitOn '/', .inr ⟨rfl, List.splitOn_ne_nil _ _⟩, fun name hname => ?_⟩
      rw [join, hname.relative, Bool.false_or, if_neg hempty, if_neg hslash, parts,
        String.toList_append, String.toList_append, List.append_assoc]
      exact hlast _ name hname

theorem isAbsolute_join (dir : String) {name : String} (hname : IsName name) :
    isAbsolute (join dir name) = isAbsolute dir := by
  rw [join, hname.relative, Bool.false_or]
  by_cases hempty : dir.isEmpty = true
  · rw [if_pos hempty, hname.relative, String.isEmpty_iff.mp hempty]
    rfl
  · have hne : dir.toList ≠ [] := by
      intro hnil
      exact hempty (by simpa using hnil)
    rw [if_neg hempty]
    split
    · rw [isAbsolute, isAbsolute, String.toList_append, List.head?_append_of_ne_nil _ hne]
    · rw [isAbsolute, isAbsolute, String.toList_append, String.toList_append, List.append_assoc,
        List.head?_append_of_ne_nil _ hne]

inductive Component where
  | root
  | current
  | parent
  | normal (name : String)
deriving DecidableEq, Repr

def Component.ofPart (part : List Char) : Component :=
  if part = ['.', '.'] then .parent else .normal (String.ofList part)

def Component.name? : Component → Option String
  | .normal name => some name
  | _ => none

/-- A single dot is gone through only at the beginning of a path that is not absolute. -/
def components (path : String) : List Component :=
  (if isAbsolute path then [.root] else if (parts path).head? = some ['.'] then [.current] else []) ++
    ((parts path).filter counts).map Component.ofPart

/-- The name of the file is the last that the path goes through. -/
theorem fileName?_eq (path : String) :
    fileName? path = ((components path).getLast?.bind Component.name?).map String.toList := by
  have hlead : (if isAbsolute path then [Component.root]
      else if (parts path).head? = some ['.'] then [.current] else []).getLast?.bind
        Component.name? = none := by
    split
    · rfl
    · split <;> rfl
  rw [fileName?, components, List.getLast?_append, List.getLast?_map]
  cases ((parts path).filter counts).getLast? with
  | none => rw [Option.map_none, Option.none_or, hlead, Option.map_none]
  | some part =>
    by_cases hup : part = ['.', '.']
    · simp [hup, Component.ofPart, Component.name?]
    · simp [hup, Component.ofPart, Component.name?]

theorem components_join (dir : String) {name : String} (hname : IsName name) :
    components (join dir name) = components dir ++ [.normal name] := by
  obtain ⟨ps, hdir, hjoin⟩ := join_parts dir
  have hjoin := hjoin name hname
  have hpart : Component.ofPart name.toList = .normal name := by
    rw [Component.ofPart, if_neg (hname.ne_of_short (by decide)), String.ofList_toList]
  have hfilter : (parts (join dir name)).filter counts = (parts dir).filter counts ++ [name.toList] := by
    rw [hjoin, List.filter_append, List.filter_cons_of_pos hname.counts, List.filter_nil]
    rcases hdir with hdir | ⟨hdir, -⟩
    · rw [hdir, List.filter_append]
      exact congrArg (· ++ _) (List.append_nil _).symm
    · rw [hdir]
  have hdot : name.toList ≠ ['.'] := hname.ne_of_short (by decide)
  -- Below a directory that is the empty text the name comes first, and it is not a dot.
  have hhead : (parts (join dir name)).head? = some ['.'] ↔ (parts dir).head? = some ['.'] := by
    rw [hjoin]
    cases ps with
    | nil =>
      rcases hdir with hdir | ⟨-, hne⟩
      · rw [hdir]
        simpa using hdot
      · exact absurd rfl hne
    | cons p ps =>
      rcases hdir with hdir | ⟨hdir, -⟩
      · rw [hdir]
        rfl
      · rw [hdir]
        rfl
  rw [components, components, isAbsolute_join dir hname, hfilter, List.map_append, List.map_singleton,
    hpart, List.append_assoc]
  simp only [hhead]

/-- What follows the last dot of a file name. A dot at the very beginning does not divide it. -/
def extensionOf? (name : List Char) : Option String :=
  if (name.reverse.dropWhile (· != '.')).drop 1 = [] then none
  else some (String.ofList (name.reverse.takeWhile (· != '.')).reverse)

def extension? (path : String) : Option String := (fileName? path).bind extensionOf?

theorem cutExtension_ne_nil {name : List Char} (h : name ≠ []) : cutExtension name ≠ [] := by
  rw [cutExtension]
  split
  · exact h
  · next hne =>
    intro hnil
    exact hne (List.reverse_eq_nil_iff.mp hnil)

section
variable {stem ext : List Char}

theorem takeWhile_dotted (h : '.' ∉ ext) :
    (stem ++ '.' :: ext).reverse.takeWhile (· != '.') = ext.reverse ∧
      (stem ++ '.' :: ext).reverse.dropWhile (· != '.') = '.' :: stem.reverse := by
  have hext : ∀ c ∈ ext.reverse, (c != '.') = true := by
    intro c hc
    rw [bne_iff_ne]
    rintro rfl
    exact h (List.mem_reverse.mp hc)
  rw [List.reverse_append, List.reverse_cons, List.append_assoc, List.takeWhile_append_of_pos hext,
    List.dropWhile_append_of_pos hext]
  simp

theorem cutExtension_dotted (hne : stem ≠ []) (h : '.' ∉ ext) :
    cutExtension (stem ++ '.' :: ext) = stem := by
  rw [cutExtension, (takeWhile_dotted h).2, List.drop_one, List.tail_cons]
  split
  · next hnil => exact absurd (List.reverse_eq_nil_iff.mp hnil) hne
  · exact List.reverse_reverse stem

theorem extensionOf?_dotted (hne : stem ≠ []) (h : '.' ∉ ext) :
    extensionOf? (stem ++ '.' :: ext) = some (String.ofList ext) := by
  rw [extensionOf?, (takeWhile_dotted h).2, (takeWhile_dotted h).1, List.drop_one, List.tail_cons,
    if_neg (by simpa using hne), List.reverse_reverse]

end

theorem stem_ne_empty {path stem : String} (h : stem? path = some stem) : stem.toList ≠ [] := by
  obtain ⟨name, hname, rfl⟩ := Option.map_eq_some_iff.mp h
  rw [String.toList_ofList]
  refine cutExtension_ne_nil ?_
  rintro rfl
  cases (fileName?_mem hname).2

end PathText

theorem Flavor.dot_not_mem_extension (flavor : Flavor) : '.' ∉ flavor.extension.toList := by
  cases flavor <;> decide

section
variable {input stem : String}
open PathText

theorem components_outputPath (dir : String) (h : stem? input = some stem) (flavor : Flavor) :
    components (outputPath dir input flavor) =
      components dir ++ [.normal (stem ++ "." ++ flavor.extension)] := by
  rw [outputPath, h, Option.getD_some]
  exact components_join dir (isName_output h flavor)

theorem fileName?_outputPath (dir : String) (h : stem? input = some stem) (flavor : Flavor) :
    fileName? (outputPath dir input flavor) =
      some (stem.toList ++ '.' :: flavor.extension.toList) := by
  rw [fileName?_eq, components_outputPath dir h, List.getLast?_concat]
  simp [Component.name?]

/-- The file for an input with a name is right in the directory, has the extension of the flavor and
the stem of the input; so two inputs have the same file if and only if they have the same stem. -/
theorem outputPath_keeps_stem (dir input : String) (flavor : Flavor) (h : (fileName? input).isSome) :
    (∃ name, components (outputPath dir input flavor) = components dir ++ [.normal name]) ∧
    extension? (outputPath dir input flavor) = some flavor.extension ∧
    stem? (outputPath dir input flavor) = stem? input ∧
    ∀ other, (fileName? other).isSome →
      (components (outputPath dir input flavor) = components (outputPath dir other flavor) ↔
        stem? input = stem? other) ∧
      (outputPath dir input flavor = outputPath dir other flavor ↔ stem? input = stem? other) := by
  have hstem : ∀ path, (fileName? path).isSome → ∃ stem, stem? path = some stem := by
    intro path hpath
    obtain ⟨name, hname⟩ := Option.isSome_iff_exists.mp hpath
    exact ⟨_, congrArg _ hname⟩
  obtain ⟨stem, hinput⟩ := hstem input h
  have hdot := flavor.dot_not_mem_extension
  refine ⟨⟨_, components_outputPath dir hinput flavor⟩, ?_, ?_, ?_⟩
  · rw [extension?, fileName?_outputPath dir hinput, Option.bind_some,
      extensionOf?_dotted (stem_ne_empty hinput) hdot, String.ofList_toList]
  · rw [stem?, fileName?_outputPath dir hinput, Option.map_some,
      cutExtension_dotted (stem_ne_empty hinput) hdot, String.ofList_toList, hinput]
  · intro other hother
    obtain ⟨stem', hstem'⟩ := hstem other hother
    have hpath : stem? input = stem? other →
        outputPath dir input flavor = outputPath dir other flavor := by
      intro heq
      rw [outputPath, outputPath, heq, hstem', Option.getD_some, Option.getD_some]
    have hcomponents : components (outputPath dir input flavor) =
        components (outputPath dir other flavor) → stem? input = stem? other := by
      intro heq
      rw [components_outputPath dir hinput, components_outputPath dir hstem',
        List.append_cancel_left_eq, List.cons.injEq, Component.normal.injEq, String.append_left_inj,
        String.append_left_inj] at heq
      rw [hinput, hstem', heq.1]
    exact ⟨⟨hcomponents, fun heq => congrArg _ (hpath heq)⟩,
      ⟨fun heq => hcomponents (congrArg _ heq), hpath⟩⟩

/-- A hidden file with two extensions, named through a slash and a dot too many. -/
theorem outputPath_keeps_stem_hidden :
    outputPath "./out/" "in//.x.tar.json/." .plain = "./out/.x.tar.java" ∧
      stem? (outputPath "./out/" "in//.x.tar.json/." .plain) = stem? "in//.x.tar.json/." ∧
      (outputPath "./out/" "in//.x.tar.json/." .plain = outputPath "./out/" ".x.tar" .plain ↔
        stem? "in//.x.tar.json/." = stem? ".x.tar") :=
  have h := outputPath_keeps_stem "./out/" "in//.x.tar.json/." .plain (by decide)
  ⟨by decide, h.2.2.1, (h.2.2.2 ".x.tar" (by decide)).2⟩

end

end JavaText
