import JavaText.Proofs.Script
import JavaText.Proofs.FolderWrites
import JavaText.Proofs.OutputNames

/-!
# The files of a run

All inputs are read before anything is written, and the renderings go one after the other into files of
one directory, named after the inputs without their directories and last extensions. So a file holds the
rendering of the last input with its name (`Desk.emitAll_emitted`), and each input has its rendering
kept if and only if the files can be written and inputs of one name have one rendering.
-/

namespace JavaText

namespace Folder

variable {f : Folder} {names : List String}

theorem steps_join (dir : String) :
    ∃ ss, ∀ name, PathText.IsName name → steps (PathText.join dir name) = ss ++ [name] := by
  obtain ⟨ps, -, hps⟩ := PathText.join_parts dir
  refine ⟨ps.map fun part => if part.isEmpty then "." else String.ofList part, fun name hname => ?_⟩
  have hempty : name.toList.isEmpty = false := by
    rw [List.isEmpty_eq_false_iff]
    exact hname.ne_of_short (by decide)
  rw [steps, hps name hname, List.map_append, List.map_singleton, hempty]
  simp

/-- Different names in one directory are different places. -/
theorem name_eq_of_locate {dir a b : String} (ha : PathText.IsName a) (hb : PathText.IsName b)
    (hpa : f.locate (PathText.join dir a) = some names)
    (hpb : f.locate (PathText.join dir b) = some names) : a = b := by
  obtain ⟨ss, hss⟩ := steps_join dir
  have hlast : ∀ name, PathText.IsName name → f.locate (PathText.join dir name) = some names →
      names.getLast? = some name := by
    intro name hname hpath
    rw [locate] at hpath
    split at hpath
    · rw [hss name hname, follow_append, Option.bind_eq_some_iff] at hpath
      obtain ⟨there, -, hstep⟩ := hpath
      obtain ⟨-, ⟨rfl, -⟩ | ⟨rfl, -⟩ | ⟨-, -, -, rfl⟩⟩ := follow_step hstep
      · exact absurd hname.long (by decide)
      · exact absurd hname.long (by decide)
      · exact List.getLast?_concat
    · cases hpath
  exact Option.some.inj ((hlast a ha hpa).symm.trans (hlast b hb hpb))

/-- Whatever can be read has a name. -/
theorem stem_of_read {path text : String} (h : f.read path = some text) :
    ∃ stem, PathText.stem? path = some stem := by
  obtain ⟨names, hlocate, htext⟩ := Option.bind_eq_some_iff.mp h
  obtain ⟨e, he, -⟩ := Option.bind_eq_some_iff.mp htext
  have hname := List.find?_some he
  have hnot : f.isDirectory names = false :=
    eq_of_beq hname ▸ noDirectory_of_mem (List.mem_of_find?_eq_some he)
  rw [locate] at hlocate
  split at hlocate
  · obtain ⟨ps, last, hparts⟩ := (List.eq_nil_or_concat (PathText.parts path)).resolve_left
      (List.splitOn_ne_nil _ _)
    rw [List.concat_eq_append] at hparts
    -- A path that ends with a slash or with dots asks for a directory.
    have hproper : ∀ s, (s = "." ∨ s = "..") →
        (if last.isEmpty then "." else String.ofList last) ≠ s := by
      intro s hs heq
      rw [steps, hparts, List.map_append, List.map_singleton, heq] at hlocate
      rw [isDirectory_of_dots hs hlocate] at hnot
      cases hnot
    have hcounts : PathText.counts last = true := by
      rw [PathText.counts, Bool.and_eq_true, bne_iff_ne, bne_iff_ne]
      constructor
      · rintro rfl
        exact hproper "." (.inl rfl) rfl
      · rintro rfl
        exact hproper "." (.inl rfl) rfl
    have hdots : last ≠ ['.', '.'] := by
      rintro rfl
      exact hproper ".." (.inr rfl) rfl
    have hfileName : PathText.fileName? path = some last := by
      rw [PathText.fileName?, hparts, List.filter_append, List.filter_cons_of_pos hcounts,
        List.filter_nil, List.getLast?_concat]
      exact if_neg hdots
    exact ⟨_, congrArg (Option.map _) hfileName⟩
  · cases hlocate

end Folder

open Folder (Later)

/-- What emitting renderings into a directory comes to: `f` is the folder once the directory is there,
`g` the folder before and `g'` the folder after. Every place has the text of the last input that goes
there, and what it had before if none does. -/
structure Emitted (f : Folder) (output text : String → String) (inputs : List String)
    (g g' : Folder) (failed : Nat) : Prop where
  later : Later f g'
  failed : failed = 0 ↔ ∀ p ∈ inputs, (f.target (output p)).isSome
  text : ∀ names, g'.textAt names =
    ((inputs.reverse.find? fun p => f.target (output p) == some names).map text).or (g.textAt names)

/-- A file that an input goes to has the rendering of some input that goes there. -/
theorem Emitted.read {f : Folder} {output text : String → String}
    {inputs : List String} {g g' : Folder} {failed : Nat}
    (h : Emitted f output text inputs g g' failed) {p : String} (hp : p ∈ inputs)
    {names : List String} (htarget : f.target (output p) = some names) :
    ∃ q ∈ inputs, f.target (output q) = some names ∧ g'.read (output p) = some (text q) := by
  have hfound : (inputs.reverse.find? fun q => f.target (output q) == some names).isSome = true :=
    List.find?_isSome.mpr ⟨p, List.mem_reverse.mpr hp, beq_iff_eq.mpr htarget⟩
  obtain ⟨q, hq⟩ := Option.isSome_iff_exists.mp hfound
  have hqtarget := List.find?_some hq
  refine ⟨q, List.mem_reverse.mp (List.mem_of_find?_eq_some hq), eq_of_beq hqtarget, ?_⟩
  rw [Folder.read_eq, h.later.locate, (Folder.target_eq_some_iff.mp htarget).1, Option.bind_some,
    h.text, hq]
  rfl

namespace Desk

variable {d : Desk} {f g : Folder} {dir : String} {flavor : Flavor}

theorem bind_apply {α β : Type} (x : StateM Desk α) (k : α → StateM Desk β) (d : Desk) :
    (x >>= k) d = k (x d).1 (x d).2 := rfl

theorem get_apply (d : Desk) : (get : StateM Desk Desk) d = (d, d) := rfl

theorem host_makeDirectory (d : Desk) (path : String) :
    host.makeDirectory path d = ((d.folder.makeDirectory path).isSome,
      { d with folder := (d.folder.makeDirectory path).getD d.folder }) := by
  cases h : d.folder.makeDirectory path with
  | none => simp only [host, bind_apply, get_apply, h]; rfl
  | some g => simp only [host, bind_apply, get_apply, h]; rfl

theorem host_write (d : Desk) (path text : String) :
    host.write path text d = ((d.folder.write path text).isSome,
      { d with folder := (d.folder.write path text).getD d.folder }) := by
  cases h : d.folder.write path text with
  | none => simp only [host, bind_apply, get_apply, h]; rfl
  | some g => simp only [host, bind_apply, get_apply, h]; rfl

theorem emit_of_target {input text : String} {names : List String}
    (hmake : d.folder.makeDirectory dir = some g)
    (h : g.target (outputPath dir input flavor) = some names) :
    host.emit (some dir) flavor input text d =
      (.ok (), { d with folder := g.withText names text (Folder.free_of_target h) }) := by
  have hwrite := host_write { d with folder := g } (outputPath dir input flavor) text
  simp only [Folder.write_of_target h, Option.isSome_some, Option.getD_some] at hwrite
  simp only [Host.emit, bind_apply, host_makeDirectory, hmake, Option.isSome_some, Option.getD_some,
    if_true, hwrite]
  rfl

theorem emit_of_no_target {input text : String} (hmake : d.folder.makeDirectory dir = some g)
    (h : g.target (outputPath dir input flavor) = none) :
    host.emit (some dir) flavor input text d =
      (.error (.write (outputPath dir input flavor)), { d with folder := g }) := by
  have hwrite := host_write { d with folder := g } (outputPath dir input flavor) text
  simp only [Folder.write_of_no_target h, Option.isSome_none, Option.getD_none] at hwrite
  simp only [Host.emit, bind_apply, host_makeDirectory, hmake, Option.isSome_some, Option.getD_some,
    if_true, hwrite]
  rfl

/-- The inputs, each with its rendering. -/
def renderings (text : String → String) (inputs : List String) :
    List (String × Except CommandError String) :=
  inputs.map fun p => (p, .ok (text p))

theorem emitAll_of_target {p : String} {ps : List String} {text : String → String}
    {names : List String} (hmake : d.folder.makeDirectory dir = some g)
    (h : g.target (outputPath dir p flavor) = some names) :
    host.emitAll (some dir) flavor (renderings text (p :: ps)) d =
      host.emitAll (some dir) flavor (renderings text ps)
        { d with folder := g.withText names (text p) (Folder.free_of_target h) } := by
  rw [renderings, List.map_cons, Host.emitAll]
  simp only [bind_apply, emit_of_target hmake h]
  rfl

theorem emitAll_of_no_target {p : String} (ps : List String) (text : String → String)
    (hmake : d.folder.makeDirectory dir = some g)
    (h : g.target (outputPath dir p flavor) = none) :
    host.emitAll (some dir) flavor (renderings text (p :: ps)) d =
      let rest := host.emitAll (some dir) flavor (renderings text ps)
        { d with folder := g, reports := .write (outputPath dir p flavor) :: d.reports }
      (rest.1 + 1, rest.2) := by
  rw [renderings, List.map_cons, Host.emitAll]
  simp only [bind_apply, emit_of_no_target hmake h]
  rfl

/-- It makes no difference whether the directory is there before the first file. -/
theorem emitAll_made {p : String} (ps : List String) (text : String → String)
    (hmake : d.folder.makeDirectory dir = some g) (hagain : g.makeDirectory dir = some g) :
    host.emitAll (some dir) flavor (renderings text (p :: ps)) d =
      host.emitAll (some dir) flavor (renderings text (p :: ps)) { d with folder := g } := by
  have hmake' : ({ d with folder := g } : Desk).folder.makeDirectory dir = some g := hagain
  cases htarget : g.target (outputPath dir p flavor) with
  | some names => exact (emitAll_of_target hmake htarget).trans (emitAll_of_target hmake' htarget).symm
  | none =>
    exact (emitAll_of_no_target ps text hmake htarget).trans
      (emitAll_of_no_target ps text hmake' htarget).symm

/-- One file after the other. -/
theorem emitAll_emitted (hmake : ∀ g, Later f g → g.makeDirectory dir = some g)
    (text : String → String) (inputs : List String) (d : Desk) (hlater : Later f d.folder) :
    Emitted f (outputPath dir · flavor) text inputs d.folder
      (host.emitAll (some dir) flavor (renderings text inputs) d).2.folder
      (host.emitAll (some dir) flavor (renderings text inputs) d).1 := by
  -- The inputs are taken from the front, so a later one comes behind in the reversed list.
  induction inputs generalizing d with
  | nil => exact ⟨hlater, iff_of_true rfl (List.forall_mem_nil _), fun _ => (Option.none_or).symm⟩
  | cons p ps ih =>
    cases htarget : f.target (outputPath dir p flavor) with
    | some names =>
      have hthere := (hlater.target _).trans htarget
      have hfree := Folder.free_of_target hthere
      rw [emitAll_of_target (hmake _ hlater) hthere]
      have hrest := ih { d with folder := d.folder.withText names (text p) hfree }
        (hlater.withText hfree (text p))
      refine ⟨hrest.later, ?_, fun x => ?_⟩
      · rw [hrest.failed, List.forall_mem_cons, htarget]
        exact (and_iff_right rfl).symm
      · rw [hrest.text, Folder.textAt_withText, List.reverse_cons, List.find?_append, Option.map_or,
          Option.or_assoc]
        refine congrArg _ ?_
        by_cases hx : names = x
        · simp [hx, htarget]
        · simp [hx, htarget]
    | none =>
      rw [emitAll_of_no_target ps text (hmake _ hlater) ((hlater.target _).trans htarget)]
      have hrest := ih { d with reports := .write (outputPath dir p flavor) :: d.reports } hlater
      refine ⟨hrest.later, ?_, fun x => ?_⟩
      · rw [List.forall_mem_cons, htarget]
        simp
      · rw [hrest.text, List.reverse_cons, List.find?_append, Option.map_or, Option.or_assoc]
        simp [htarget]

end Desk

theorem Invocation.inputs_ne_nil {args : List String} {inv : Invocation}
    (h : ofArguments args = .ok inv) : inv.inputs ≠ [] := by
  rw [ofArguments] at h
  cases hparse : parseAll {} none args with
  | error stop =>
    rw [hparse] at h
    cases h
  | ok inv' =>
    rw [hparse, Except.bind] at h
    split at h
    · cases h
    · next hinputs =>
      cases h
      rwa [List.isEmpty_iff] at hinputs

/-- The path can be read, and its text is that of a compilation unit. -/
def Folder.hasUnit (f : Folder) (path : String) : Bool :=
  (f.read path).any fun text => (Json.load (Json.readChild (.only .compilationUnit)) text).isOk

/-- The configuration that a run starts from. -/
def Folder.config (f : Folder) : Option String → Except CommandError Config
  | none => .ok {}
  | some path => Config.load path (f.read path)

/-- The rendering of an input. -/
def Renderer.rendered (r : Renderer) (f : Folder) (path : String) : Except CommandError String :=
  r.renderInput path (f.read path)

/-- Printing a unit does not fail, whatever the configuration and the flavor. -/
theorem Renderer.render_ok (r : Renderer) (unit : Tree .compilationUnit) :
    ∃ text, ∀ path, r.render path unit = .ok text := by
  obtain ⟨w, hw⟩ : ∃ w : Wrapper, r.printer.decorator = w.decorator := by
    rw [Renderer.printer]
    cases r.flavor with
    | html => exact ⟨_, r.config.markup.wrapper_decorator.symm⟩
    | plain => exact ⟨_, Wrapper.plain_decorator.symm⟩
  obtain ⟨text, hprint⟩ := r.printer.print_ok hw (.tree unit) r.printer.init
  refine ⟨text, fun path => ?_⟩
  rw [render, hprint]
  rfl

/-- Every unit can be rendered. -/
theorem Renderer.rendered_ok {f : Folder} {path : String} (h : f.hasUnit path = true) (r : Renderer) :
    ∃ text, r.rendered f path = .ok text := by
  obtain ⟨source, hread, hok⟩ := (Option.any_eq_true _ _).mp h
  obtain ⟨unit, hload⟩ : ∃ unit, Json.load (Json.readChild (.only .compilationUnit)) source =
      .ok unit := by
    cases hload : Json.load (Json.readChild (.only .compilationUnit)) source with
    | ok unit => exact ⟨unit, rfl⟩
    | error e =>
      rw [hload] at hok
      cases hok
  obtain ⟨text, htext⟩ := r.render_ok unit.sole
  refine ⟨text, ?_⟩
  rw [rendered, hread, renderInput, renderText, hload]
  exact htext path

namespace Desk

variable {d : Desk}

theorem loadConfig_eq (d : Desk) (path : Option String) :
    host.loadConfig path d = (d.folder.config path, d) := by
  cases path <;> rfl

theorem renderAll_eq (d : Desk) (r : Renderer) (inputs : List String) :
    host.renderAll r inputs d = (inputs.map (r.rendered d.folder), d) := by
  rw [Host.renderAll]
  induction inputs with
  | nil => rfl
  | cons p ps ih =>
    rw [List.mapM_cons]
    show (do let xs ← ps.mapM (host.renderFile r); pure (r.rendered d.folder p :: xs) : StateM Desk _) d = _
    rw [bind_apply, ih]
    rfl

/-- A run whose configuration is loaded emits the rendering of each input or its error, and succeeds if
none of them fails. -/
theorem perform_emits {inv : Invocation} {config : Config}
    (hconfig : d.folder.config inv.config = .ok config) :
    let emitted := host.emitAll inv.outDir inv.flavor
      (inv.inputs.map fun p => (p, (inv.renderer config).rendered d.folder p)) d
    (host.perform inv d).2.folder = emitted.2.folder ∧
      (host.perform inv d).2.output = emitted.2.output ∧
      ((host.perform inv d).1 = .success ↔ emitted.1 = 0) := by
  intro emitted
  have hperform : host.perform inv d =
      (if emitted.1 = 0 then pure .success else do
        host.report (.failed emitted.1 inv.inputs.length)
        return .failure : StateM Desk Exit) emitted.2 := by
    simp only [Host.perform, bind_apply, loadConfig_eq, hconfig, renderAll_eq,
      ← List.map_prod_left_eq_zip]
    rfl
  rw [hperform]
  by_cases hfailed : emitted.1 = 0
  · rw [if_pos hfailed]
    exact ⟨rfl, rfl, iff_of_true rfl hfailed⟩
  · rw [if_neg hfailed]
    exact ⟨rfl, rfl, iff_of_false (by rintro ⟨⟩) hfailed⟩

theorem run_eq_perform {args : List String} {inv : Invocation}
    (hargs : Invocation.ofArguments args = .ok inv) (d : Desk) :
    host.run args d = host.perform inv d := by
  rw [Host.run, hargs]

theorem run_emitted {args : List String} {inv : Invocation} {config : Config} {dir : String}
    {made : Folder} (hargs : Invocation.ofArguments args = .ok inv) (hdir : inv.outDir = some dir)
    (hconfig : d.folder.config inv.config = .ok config)
    (hmade : d.folder.makeDirectory dir = some made) {text : String → String}
    (htext : ∀ p ∈ inv.inputs, (inv.renderer config).rendered d.folder p = .ok (text p)) :
    ∃ failed, Emitted made (outputPath dir · inv.flavor) text inv.inputs made
        (host.run args d).2.folder failed ∧
      ((host.run args d).1 = .success ↔ failed = 0) := by
  have hrenderings : (inv.inputs.map fun p => (p, (inv.renderer config).rendered d.folder p)) =
      renderings text inv.inputs :=
    List.map_congr_left fun p hp => congrArg (Prod.mk p) (htext p hp)
  obtain ⟨hafter, -, hexit⟩ := perform_emits hconfig
  obtain ⟨p, ps, hinputs⟩ := List.exists_cons_of_ne_nil (Invocation.inputs_ne_nil hargs)
  have hagain : ∀ g, Later made g → g.makeDirectory dir = some g := fun g hlater =>
    Folder.makeDirectory_again hmade hlater
  rw [run_eq_perform hargs, hafter, hexit, hrenderings, hdir, hinputs,
    emitAll_made ps text hmade (hagain made (.refl made))]
  exact ⟨_, emitAll_emitted hagain text (p :: ps) { d with folder := made } (.refl made), Iff.rfl⟩

/-- A run that writes files keeps the rendering of every input if and only if all the files can be
written and inputs with one stem have one rendering. -/
theorem run_keeps_iff {args : List String} {inv : Invocation} {config : Config} {dir : String}
    {d : Desk} {made : Folder} (hargs : Invocation.ofArguments args = .ok inv)
    (hdir : inv.outDir = some dir) (hconfig : d.folder.config inv.config = .ok config)
    (hinputs : ∀ p ∈ inv.inputs, d.folder.hasUnit p = true)
    (hmade : d.folder.makeDirectory dir = some made) :
    ((host.run args d).1 = .success ∧ ∀ p ∈ inv.inputs, ∃ text,
        (inv.renderer config).rendered d.folder p = .ok text ∧
          (host.run args d).2.folder.read (outputPath dir p inv.flavor) = some text) ↔
      (∀ p ∈ inv.inputs, (made.target (outputPath dir p inv.flavor)).isSome) ∧
        ∀ p ∈ inv.inputs, ∀ q ∈ inv.inputs, PathText.stem? p = PathText.stem? q →
          (inv.renderer config).rendered d.folder p = (inv.renderer config).rendered d.folder q := by
  obtain ⟨text, htext⟩ : ∃ text : String → String, ∀ p ∈ inv.inputs,
      (inv.renderer config).rendered d.folder p = .ok (text p) := by
    refine ⟨fun p => ((inv.renderer config).rendered d.folder p).toOption.getD "", fun p hp => ?_⟩
    obtain ⟨t, ht⟩ := Renderer.rendered_ok (hinputs p hp) (inv.renderer config)
    show _ = Except.ok (((inv.renderer config).rendered d.folder p).toOption.getD "")
    rw [ht]
    rfl
  obtain ⟨failed, hemitted, hexit⟩ := run_emitted hargs hdir hconfig hmade htext
  have hpath : ∀ p ∈ inv.inputs, ∃ stem, PathText.stem? p = some stem ∧
      outputPath dir p inv.flavor = PathText.join dir (stem ++ "." ++ inv.flavor.extension) := by
    intro p hp
    obtain ⟨source, hread, -⟩ := (Option.any_eq_true _ _).mp (hinputs p hp)
    obtain ⟨stem, hstem⟩ := Folder.stem_of_read hread
    exact ⟨stem, hstem, by rw [outputPath, hstem, Option.getD_some]⟩
  rw [hexit, hemitted.failed]
  refine and_congr_right fun htargets => ⟨fun hkept p hp q hq hstems => ?_, fun hsame p hp => ?_⟩
  · obtain ⟨stem, hstem, houtp⟩ := hpath p hp
    obtain ⟨stem', hstem', houtq⟩ := hpath q hq
    obtain rfl : stem = stem' := Option.some.inj (hstem.symm.trans (hstems.trans hstem'))
    obtain ⟨t, ht, hreadp⟩ := hkept p hp
    obtain ⟨t', ht', hreadq⟩ := hkept q hq
    rw [houtp] at hreadp
    rw [houtq] at hreadq
    rw [ht, ht', Option.some.inj (hreadp.symm.trans hreadq)]
  · obtain ⟨names, hnames⟩ := Option.isSome_iff_exists.mp (htargets p hp)
    -- The file has the rendering of an input that goes to the same place, hence has the same stem.
    obtain ⟨q, hq, hnames', hread⟩ := hemitted.read hp hnames
    obtain ⟨stem, hstem, houtp⟩ := hpath p hp
    obtain ⟨stem', hstem', houtq⟩ := hpath q hq
    rw [houtp, Folder.target_eq_some_iff] at hnames
    rw [houtq, Folder.target_eq_some_iff] at hnames'
    have hname := Folder.name_eq_of_locate (isName_output hstem inv.flavor)
      (isName_output hstem' inv.flavor) hnames.1 hnames'.1
    have hstems : stem = stem' := by
      rwa [String.append_left_inj, String.append_left_inj] at hname
    refine ⟨text q, ?_, hread⟩
    rw [hsame p hp q hq (by rw [hstem, hstem', hstems]), htext q hq]

/-- The source of a unit that has a package only. -/
def packageSource (name : String) : String :=
  "\x7b\"package\":\x7b\"name\":\x7b\"identifier\":\"" ++ name ++ "\"\x7d\x7d\x7d"

/-- The source of a unit in one directory, and of another one under the given name in a second
directory. -/
def twoFiles (name : String) : List (List String × Option String) :=
  [(["a", "X.json"], some (packageSource "a")), (["b", name], some (packageSource "b"))]

theorem consistent_twoFiles (name : String) :
    (twoFiles name).all (fun e => !Folder.hasDirectory (twoFiles name) [] e.1) = true := by
  have hfirst : ["a", "X.json"].isPrefixOf ["b", name] = false := rfl
  have hsecond : ["b", name].isPrefixOf ["a", "X.json"] = false := rfl
  simp [twoFiles, Folder.hasDirectory, hfirst, hsecond]

def twoUnits (name : String) : Desk where
  folder := { files := twoFiles name, consistent := consistent_twoFiles name }

theorem noFile_twoUnits : (twoUnits "Y.json").folder.isFile ["out"] = false := by
  decide +kernel

theorem run_keeps_differentStems :
    (host.run ["--plain", "-o", "out", "a/X.json", "b/Y.json"] (twoUnits "Y.json")).1 = .success ∧
      ∀ p ∈ ["a/X.json", "b/Y.json"], ∃ text,
        Renderer.rendered ⟨{}, .plain⟩ (twoUnits "Y.json").folder p = .ok text ∧
          (host.run ["--plain", "-o", "out", "a/X.json", "b/Y.json"]
            (twoUnits "Y.json")).2.folder.read (outputPath "out" p .plain) = some text := by
  have hargs : Invocation.ofArguments ["--plain", "-o", "out", "a/X.json", "b/Y.json"] =
      .ok { inputs := ["a/X.json", "b/Y.json"], plain := true, outDir := some "out" } := by
    decide +kernel
  have hmade : (twoUnits "Y.json").folder.makeDirectory "out" =
      some ((twoUnits "Y.json").folder.withDirectory ["out"] noFile_twoUnits) := by
    decide +kernel
  refine (run_keeps_iff hargs rfl rfl (by decide +kernel) hmade).mpr ⟨?_, ?_⟩
  · decide +kernel
  · decide +kernel

/-- Of two inputs with one stem only the second is kept, and the run does not fail. -/
theorem run_loses_sameStem :
    (∀ p ∈ ["a/X.json", "b/X.json"], (twoUnits "X.json").folder.hasUnit p = true) ∧
      Renderer.rendered ⟨{}, .plain⟩ (twoUnits "X.json").folder "a/X.json" =
        .ok "package a;\n\n" ∧
      (host.run ["--plain", "-o", "out", "a/X.json", "b/X.json"] (twoUnits "X.json")).1 = .success ∧
      (host.run ["--plain", "-o", "out", "a/X.json", "b/X.json"]
        (twoUnits "X.json")).2.folder.changed (twoUnits "X.json").folder =
          [(["out", "X.java"], some "package b;\n\n")] := by
  decide +kernel

end Desk

end JavaText
