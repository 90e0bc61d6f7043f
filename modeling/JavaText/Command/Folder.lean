import JavaText.Command.Run

/-!
# The command over a folder held in memory

A file is known by the names on the way to it from the folder; the directories are those names'
beginnings and whatever directories were made. Nothing outside the folder can be reached, and names and
paths that are too long lead nowhere.
-/

namespace JavaText

namespace Folder

/-- Whether there is a directory, given the files and the directories that were made. -/
def hasDirectory (files : List (List String × Option String)) (made : List (List String))
    (names : List String) : Bool :=
  names.isEmpty || made.contains names || files.any fun e => names.isPrefixOf e.1 && names != e.1

end Folder

structure Folder where
  /-- The files, each with its text unless it is not Unicode. -/
  files : List (List String × Option String)
  /-- Directories that were made. -/
  made : List (List String) := []
  /-- No file is also a directory. -/
  consistent : files.all (fun e => !Folder.hasDirectory files made e.1) = true
deriving DecidableEq, Repr

namespace Folder

def isFile (f : Folder) (names : List String) : Bool := f.files.any fun e => e.1 == names

def isDirectory (f : Folder) (names : List String) : Bool := hasDirectory f.files f.made names

/-- A name has at most 255 bytes. -/
def nameFits (name : String) : Bool := name.utf8ByteSize ≤ 255

/-- A path has fewer than 4096 bytes. -/
def pathFits (path : String) : Bool := path.utf8ByteSize < 4096

/-- The steps of a path. An empty part asks, like a dot, for the directory itself. -/
def steps (path : String) : List String :=
  (PathText.parts path).map fun part => if part.isEmpty then "." else String.ofList part

/-- Goes from a directory by some steps, to what may be there or not. -/
def follow (f : Folder) (names : List String) : List String → Option (List String)
  | [] => some names
  | step :: rest =>
    if !f.isDirectory names then none
    else if step = "." then follow f names rest
    else if step = ".." then
      if names.isEmpty then none else follow f names.dropLast rest
    else if nameFits step then follow f (names ++ [step]) rest
    else none

/-- Whether the path may lead to something in the folder. -/
def reaches (path : String) : Bool := !PathText.isAbsolute path && pathFits path

/-- Where a path leads to. -/
def locate (f : Folder) (path : String) : Option (List String) :=
  if reaches path then f.follow [] (steps path) else none

def read (f : Folder) (path : String) : Option String :=
  (f.locate path).bind fun names => (f.files.find? fun e => e.1 == names).bind Prod.snd

theorem noDirectory_of_mem {f : Folder} {e : List String × Option String} (he : e ∈ f.files) :
    hasDirectory f.files f.made e.1 = false := by
  simpa using List.all_eq_true.mp f.consistent e he

theorem hasDirectory_concat (files : List (List String × Option String)) (made : List (List String))
    (names x : List String) :
    hasDirectory files (made ++ [names]) x = (hasDirectory files made x || x == names) := by
  simp only [hasDirectory, List.contains_append, List.contains_cons, List.contains_nil, Bool.or_false]
  ac_rfl

theorem consistent_concat {f : Folder} {names : List String} (h : f.isFile names = false) :
    f.files.all (fun e => !hasDirectory f.files (f.made ++ [names]) e.1) = true := by
  rw [List.all_eq_true]
  intro e he
  have hne : (e.1 == names) = false := by simpa using List.any_eq_false.mp h e he
  rw [hasDirectory_concat, noDirectory_of_mem he, hne]
  rfl

/-- The folder with a further directory. -/
def withDirectory (f : Folder) (names : List String) (h : f.isFile names = false) : Folder where
  files := f.files
  made := f.made ++ [names]
  consistent := consistent_concat h

/-- Goes by some steps and makes the directories that are missing. -/
def make (f : Folder) (names : List String) : List String → Option Folder
  | [] => some f
  | step :: rest =>
    if step = "." then make f names rest
    else if step = ".." then
      if names.isEmpty then none else make f names.dropLast rest
    else if nameFits step then
      let names := names ++ [step]
      if h : f.isFile names = false then
        if f.isDirectory names then make f names rest
        else make (f.withDirectory names h) names rest
      else none
    else none

/-- The steps of a path without the empty parts, and without the dots at its end. -/
def properSteps (path : String) : List String :=
  (((PathText.parts path).filter fun part => !part.isEmpty).reverse.dropWhile
    fun part => part == ['.']).reverse.map String.ofList

/-- Whether the last part of the path, empty ones aside, is a dot. -/
def endsInDot (path : String) : Bool :=
  ((PathText.parts path).filter fun part => !part.isEmpty).getLast? == some ['.']

/-- Makes sure that a directory is there. Directories that are missing are made on the way; the one
that a dot at the end asks for has to be there by then. -/
def makeDirectory (f : Folder) (path : String) : Option Folder :=
  if !reaches path then none
  else if endsInDot path then
    (f.make [] (properSteps path).dropLast).bind fun f =>
      if ((f.follow [] (properSteps path)).map f.isDirectory).getD false then some f else none
  else f.make [] (properSteps path)

/-- Sets the text of a file. -/
def put (names : List String) (text : String) :
    List (List String × Option String) → List (List String × Option String)
  | [] => [(names, some text)]
  | e :: es => if e.1 = names then (names, some text) :: es else e :: put names text es

variable {f : Folder} {names there : List String}

theorem mem_put {text : String} {es : List (List String × Option String)}
    {e : List String × Option String} (h : e ∈ put names text es) : e = (names, some text) ∨ e ∈ es := by
  induction es with
  | nil => simpa [put] using h
  | cons d es ih => grind [put]

theorem any_put (q : List String → Bool) (names : List String) (text : String)
    (es : List (List String × Option String)) :
    ((put names text es).any fun e => q e.1) = ((es.any fun e => q e.1) || q names) := by
  induction es with
  | nil => rw [put, List.any_cons, List.any_nil, Bool.or_false, Bool.false_or]
  | cons e es ih =>
    rw [put]
    split
    · next heq =>
      rw [List.any_cons, List.any_cons, heq, Bool.or_right_comm, Bool.or_self]
    · rw [List.any_cons, List.any_cons, ih, Bool.or_assoc]

theorem follow_append (f : Folder) (names ss ts : List String) :
    f.follow names (ss ++ ts) = (f.follow names ss).bind fun there => f.follow there ts := by
  induction ss generalizing names with
  | nil => rfl
  | cons s ss ih =>
    rw [List.cons_append, follow, follow]
    split
    · rfl
    split
    · exact ih names
    split
    · split
      · rfl
      · exact ih names.dropLast
    · split
      · exact ih (names ++ [s])
      · rfl

/-- Every step starts from a directory. -/
theorem follow_step {s : String} (h : f.follow names [s] = some there) :
    f.isDirectory names = true ∧
      ((s = "." ∧ there = names) ∨ (s = ".." ∧ there = names.dropLast) ∨
        (s ≠ "." ∧ s ≠ ".." ∧ nameFits s = true ∧ there = names ++ [s])) := by
  rw [follow] at h
  split at h
  · cases h
  · next hnames =>
    rw [Bool.not_eq_true, Bool.not_eq_false'] at hnames
    refine ⟨hnames, ?_⟩
    split at h
    · next hdot =>
      cases h
      exact .inl ⟨hdot, rfl⟩
    · next hdot =>
      split at h
      · next hdots =>
        split at h
        · cases h
        · cases h
          exact .inr (.inl ⟨hdots, rfl⟩)
      · next hdots =>
        split at h
        · next hfits =>
          cases h
          exact .inr (.inr ⟨hdot, hdots, hfits, rfl⟩)
        · cases h

/-- Everything above the place is a directory. -/
def Grounded (f : Folder) (names : List String) : Prop :=
  ∀ x, x <+: names → x ≠ names → f.isDirectory x = true

theorem grounded_nil (f : Folder) : f.Grounded [] := fun _ hx hne =>
  absurd (List.prefix_nil.mp hx) hne

theorem Grounded.step {s : String} (h : f.Grounded names) (hs : f.follow names [s] = some there) :
    f.Grounded there := by
  obtain ⟨hnames, ⟨-, rfl⟩ | ⟨-, rfl⟩ | ⟨-, -, -, rfl⟩⟩ := follow_step hs
  · exact h
  · intro x hx hne
    refine h x (hx.trans (List.dropLast_prefix names)) ?_
    rintro rfl
    exact hne (hx.eq_of_length_le (List.length_dropLast ▸ Nat.sub_le _ _))
  · intro x hx hne
    have hx := (List.prefix_concat_iff.mp hx).resolve_left hne
    by_cases heq : x = names
    · rw [heq, hnames]
    · exact h x hx heq

theorem Grounded.follow {ss : List String} (h : f.Grounded names)
    (hss : f.follow names ss = some there) : f.Grounded there := by
  induction ss generalizing names with
  | nil =>
    cases hss
    exact h
  | cons s ss ih =>
    rw [← List.singleton_append, follow_append, Option.bind_eq_some_iff] at hss
    obtain ⟨mid, hs, hss⟩ := hss
    exact ih (h.step hs) hss

theorem grounded_locate {path : String} (h : f.locate path = some names) : f.Grounded names := by
  rw [locate] at h
  split at h
  · exact f.grounded_nil.follow h
  · cases h

/-- Where a file would be written, if one can be. -/
def target (f : Folder) (path : String) : Option (List String) :=
  (f.locate path).filter fun names => !f.isDirectory names

theorem target_eq_some_iff {path : String} :
    f.target path = some names ↔ f.locate path = some names ∧ f.isDirectory names = false := by
  rw [target, Option.filter_eq_some_iff, Bool.not_eq_true']

/-- A file can be at the place. -/
structure Free (f : Folder) (names : List String) : Prop where
  grounded : f.Grounded names
  noDirectory : f.isDirectory names = false

theorem free_of_target {path : String} (h : f.target path = some names) : f.Free names := by
  obtain ⟨hlocate, hnames⟩ := target_eq_some_iff.mp h
  exact ⟨grounded_locate hlocate, hnames⟩

theorem hasDirectory_put (files : List (List String × Option String)) (made : List (List String))
    (names x : List String) (text : String) :
    hasDirectory (put names text files) made x =
      (hasDirectory files made x || (x.isPrefixOf names && x != names)) := by
  simp only [hasDirectory, any_put (fun y => x.isPrefixOf y && x != y), Bool.or_assoc]

theorem Free.consistent_put (h : f.Free names) (text : String) :
    (put names text f.files).all
      (fun e => !hasDirectory (put names text f.files) f.made e.1) = true := by
  rw [List.all_eq_true]
  intro e he
  rw [hasDirectory_put, Bool.not_eq_true', Bool.or_eq_false_iff]
  rcases mem_put he with rfl | he
  · exact ⟨h.noDirectory, by simp⟩
  · refine ⟨noDirectory_of_mem he, Bool.eq_false_iff.mpr fun habove => ?_⟩
    -- a file above the place would be a directory
    rw [Bool.and_eq_true, List.isPrefixOf_iff_prefix, bne_iff_ne] at habove
    have hdirectory : hasDirectory f.files f.made e.1 = true := h.grounded e.1 habove.1 habove.2
    rw [noDirectory_of_mem he] at hdirectory
    cases hdirectory

/-- The folder with a text at a place. -/
def withText (f : Folder) (names : List String) (text : String) (h : f.Free names) : Folder where
  files := put names text f.files
  made := f.made
  consistent := h.consistent_put text

/-- Writes a file; its directory has to be there. -/
def write (f : Folder) (path text : String) : Option Folder :=
  (f.target path).pmap (fun names h => f.withText names text h) fun _ h => free_of_target h

/-- The files that are not in an earlier state of the folder as they are now. -/
def changed (f before : Folder) : List (List String × Option String) :=
  f.files.filter fun e => !before.files.contains e

end Folder

/-- A folder, and what a run has put out. -/
structure Desk where
  folder : Folder
  output : String := ""
  /-- The errors reported so far, the last one first. -/
  reports : List CommandError := []

/-- Runs work on the folder of a desk. -/
def Desk.host : Host (StateM Desk) where
  read path := return (← get).folder.read path
  makeDirectory path := do
    match (← get).folder.makeDirectory path with
    | none => return false
    | some folder =>
      modify fun d => { d with folder }
      return true
  write path text := do
    match (← get).folder.write path text with
    | none => return false
    | some folder =>
      modify fun d => { d with folder }
      return true
  print text := modify fun d => { d with output := d.output ++ text }
  report e := modify fun d => { d with reports := e :: d.reports }

end JavaText
