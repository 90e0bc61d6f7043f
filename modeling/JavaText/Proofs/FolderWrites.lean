import JavaText.Command.Folder

/-!
# Folders in which files are written

Where a path leads to depends on the directories only, and a way that leads somewhere passes through
directories all along; so writing a file neither makes nor removes a directory, and every path leads
where it did (`Folder.Later`). A directory that was made once is found again, and what a file holds is
what was written last.
-/

namespace JavaText.Folder

variable {f g : Folder} {names there : List String}

/-- A way that ends with one or two dots leads to a directory. -/
theorem isDirectory_of_dots {s : String} {ss : List String} (hs : s = "." ∨ s = "..")
    (h : f.follow [] (ss ++ [s]) = some names) : f.isDirectory names = true := by
  rw [follow_append, Option.bind_eq_some_iff] at h
  obtain ⟨mid, hss, hstep⟩ := h
  have habove := f.grounded_nil.follow hss
  obtain ⟨hmid, ⟨-, rfl⟩ | ⟨-, rfl⟩ | ⟨hdot, hdots, -⟩⟩ := follow_step hstep
  · exact hmid
  · by_cases hnil : mid = []
    · rw [hnil]
      rfl
    · refine habove _ (List.dropLast_prefix mid) fun heq => hnil ?_
      have hlength := congrArg List.length heq
      rw [List.length_dropLast] at hlength
      exact List.length_eq_zero_iff.mp (by omega)
  · exact (hs.elim hdot hdots).elim

/-- The text of the file at a place. -/
def textAt (f : Folder) (names : List String) : Option String :=
  (f.files.find? fun e => e.1 == names).bind Prod.snd

theorem read_eq (f : Folder) (path : String) : f.read path = (f.locate path).bind f.textAt := rfl

theorem textAt_withText (h : f.Free names) (x : List String) (text : String) :
    (f.withText names text h).textAt x = if names = x then some text else f.textAt x := by
  simp only [withText, textAt]
  induction f.files with
  | nil =>
    by_cases h : names = x
    · simp [put, h]
    · simp [put, h]
  | cons e es ih =>
    rw [put]
    by_cases he : e.1 = names
    · rw [if_pos he]
      by_cases h : names = x
      · simp [h]
      · simp [he, h]
    · rw [if_neg he]
      by_cases hx : e.1 = x
      · have hne : names ≠ x := fun h => he (hx.trans h.symm)
        simp [hx, hne]
      · rw [List.find?_cons_of_neg (by simpa using hx), List.find?_cons_of_neg (by simpa using hx), ih]

theorem write_of_target {path : String} (h : f.target path = some names) (text : String) :
    f.write path text = some (f.withText names text (free_of_target h)) := by
  simp only [write, h, Option.pmap_some]

theorem write_of_no_target {path : String} (h : f.target path = none) (text : String) :
    f.write path text = none := by
  simp only [write, h, Option.pmap_none]

theorem isFile_eq_false (h : f.isDirectory names = true) : f.isFile names = false := by
  refine List.any_eq_false.mpr fun e he heq => ?_
  have hnames : f.isDirectory e.1 = false := noDirectory_of_mem he
  rw [eq_of_beq heq, h] at hnames
  cases hnames

/-- The folder `g` has the directories of `f`. -/
structure Later (f g : Folder) : Prop where
  directory : ∀ x, g.isDirectory x = f.isDirectory x

namespace Later

theorem refl (f : Folder) : Later f f := ⟨fun _ => rfl⟩

theorem follow (h : Later f g) (names ss : List String) : g.follow names ss = f.follow names ss := by
  induction ss generalizing names with
  | nil => rfl
  | cons s ss ih => simp only [Folder.follow, h.directory, ih]

theorem locate (h : Later f g) (path : String) : g.locate path = f.locate path := by
  rw [Folder.locate, Folder.locate, h.follow]

theorem target (h : Later f g) (path : String) : g.target path = f.target path := by
  rw [Folder.target, Folder.target, h.locate]
  simp only [h.directory]

/-- Writing a file changes no directory: all that is above the file was one before. -/
theorem withText (h : Later f g) (hnames : g.Free names) (text : String) :
    Later f (g.withText names text hnames) := by
  constructor
  intro x
  have hput : (g.withText names text hnames).isDirectory x =
      (g.isDirectory x || (x.isPrefixOf names && x != names)) := hasDirectory_put ..
  rw [hput, ← h.directory, Bool.or_eq_left_iff_imp, Bool.and_eq_true, List.isPrefixOf_iff_prefix,
    bne_iff_ne]
  exact fun hx => hnames.grounded x hx.1 hx.2

end Later

/-- A step that makes sure of a directory, from `f` to `f'`. -/
theorem make_step {s : String} {ss : List String} (h : f.make names (s :: ss) = some g) :
    (s = "." ∧ f.make names ss = some g) ∨
    (s = ".." ∧ names.isEmpty = false ∧ f.make names.dropLast ss = some g) ∨
    (s ≠ "." ∧ s ≠ ".." ∧ nameFits s = true ∧
      ∃ f' : Folder, (∀ x, f.isDirectory x = true → f'.isDirectory x = true) ∧
        f'.isDirectory (names ++ [s]) = true ∧ f'.make (names ++ [s]) ss = some g) := by
  rw [make] at h
  split at h
  · next hdot => exact .inl ⟨hdot, h⟩
  next hdot =>
  split at h
  · next hdots =>
    split at h
    · cases h
    · next hnames => exact .inr (.inl ⟨hdots, Bool.eq_false_iff.mpr hnames, h⟩)
  next hdots =>
  split at h
  · next hfits =>
    refine .inr (.inr ⟨hdot, hdots, hfits, ?_⟩)
    dsimp only at h
    split at h
    · next hfile =>
      split at h
      · next hdirectory => exact ⟨f, fun _ hx => hx, hdirectory, h⟩
      · have hmade : ∀ x, (f.withDirectory (names ++ [s]) hfile).isDirectory x =
            (f.isDirectory x || x == names ++ [s]) := fun x => hasDirectory_concat ..
        refine ⟨f.withDirectory (names ++ [s]) hfile, fun x hx => ?_, ?_, h⟩
        · rw [hmade, hx, Bool.true_or]
        · rw [hmade, beq_self_eq_true, Bool.or_true]
    · cases h
  · cases h

theorem make_keeps {ss : List String} (h : f.make names ss = some g) :
    ∀ x, f.isDirectory x = true → g.isDirectory x = true := by
  induction ss generalizing f names with
  | nil =>
    cases h
    exact fun _ hx => hx
  | cons s ss ih =>
    obtain ⟨-, h⟩ | ⟨-, -, h⟩ | ⟨-, -, -, f', hdirectories, -, h⟩ := make_step h
    · exact ih h
    · exact ih h
    · exact fun x hx => ih h x (hdirectories x hx)

/-- Directories that were made are found later on. -/
theorem make_again {g' : Folder} {ss : List String} (h : f.make names ss = some g)
    (hlater : Later g g') : g'.make names ss = some g' := by
  induction ss generalizing f names with
  | nil => rfl
  | cons s ss ih =>
    rw [make]
    rcases make_step h with ⟨hdot, hrest⟩ | ⟨hdots, hnames, hrest⟩ |
      ⟨hdot, hdots, hfits, f', -, hmade, hrest⟩
    · rw [if_pos hdot, ih hrest]
    · subst hdots
      rw [if_neg (by decide), if_pos rfl, hnames, ih hrest]
      rfl
    · -- The step made sure of a directory, and it has stayed one.
      have hdirectory : g'.isDirectory (names ++ [s]) = true := by
        rw [hlater.directory]
        exact make_keeps hrest _ hmade
      rw [if_neg hdot, if_neg hdots, if_pos hfits]
      dsimp only
      rw [dif_pos (isFile_eq_false hdirectory), if_pos hdirectory]
      exact ih hrest

theorem makeDirectory_again {g' : Folder} {path : String} (h : f.makeDirectory path = some g)
    (hlater : Later g g') : g'.makeDirectory path = some g' := by
  rw [makeDirectory] at h ⊢
  split at h
  · cases h
  next hreaches =>
  rw [if_neg hreaches]
  split at h
  · next hdot =>
    obtain ⟨f', hmake, hthere⟩ := Option.bind_eq_some_iff.mp h
    split at hthere
    · next hdirectory =>
      cases hthere
      rw [if_pos hdot, make_again hmake hlater, Option.bind_some, hlater.follow,
        funext hlater.directory]
      exact if_pos hdirectory
    · cases hthere
  · next hdot =>
    rw [if_neg hdot]
    exact make_again h hlater

end JavaText.Folder
