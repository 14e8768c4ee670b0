import Klever.Lib.Except

/-!
# Requirement specification generator

RSG turns models of a requirement specification into commands for Weaver. A command lists options that come from the
configuration of the requirement specification, so that the same model may be compiled in different ways for different
requirement specifications.

Two variables outlive their loops in `add_models`. The model that chooses between models of sets is just the last one, and
models that ask for all aspects after a model with its own list of aspects get that list.
-/

namespace Klever.Core.Rsg

open Klever.Lib List

/-! ## Paths and files -/

/-- `os.path.splitext`: leading dots of the last component do not start an extension. -/
def splitext (path : String) : String × String :=
  let chars := path.toList.reverse
  let ext := chars.takeWhile fun c => c ≠ '.' ∧ c ≠ '/'
  match chars.drop ext.length with
  | '.' :: root =>
    if (root.takeWhile (· ≠ '/')).all (· = '.') then (path, "")
    else (String.ofList root.reverse, String.ofList ('.' :: ext.reverse))
  | _ => (path, "")

/-- `os.path.basename` -/
def basename (path : String) : String := String.ofList (path.toList.reverse.takeWhile (· ≠ '/')).reverse

example : splitext "linux/lib/find_bit.common.c" = ("linux/lib/find_bit.common", ".c") := by decide +kernel

example : splitext "linux.d/.config" = ("linux.d/.config", "") := by decide +kernel

/-- Files as a task sees them from its working directory. -/
structure Files where
  /-- `os.path.join` of the main working directory and a path -/
  join : String → String
  /-- `os.path.relpath` to the main working directory -/
  relpath : String → String
  /-- `os.path.relpath` to the working directory -/
  here : String → String
  realpath : String → String
  /-- Looks through search directories and raises an exception if there is nothing. -/
  find : String → Except String String
  /-- Contents of files -/
  text : String → Option String

/-- `find_file_or_dir` of VTG -/
def Files.findFileOrDir (files : Files) (path : String) : Except String String :=
  match files.find ("specifications/" ++ path) with
  | .ok found => .ok found
  | .error _ => files.find path

/-! ## Job, build base and configuration -/

/-- Options of a job that are common for all its tasks. -/
structure Job where
  architecture : String
  specificationsSet : Option String
  /-- The directory of the specifications base -/
  specifications : String
  workingSourceTrees : List String
  keepIntermediateFiles : Bool
  /-- 'code coverage details' is 'Original C source files' -/
  originalSourcesOnly : Bool

/-- A compiler command or its description. -/
structure Command where
  inFiles : List String
  opts : List String
  cwd : String
  deriving DecidableEq, Repr

/-- A build base. -/
structure Build where
  preprocessCmds : Bool
  extraCifOpts : List String
  filterOpts : List String → List String
  storagePath : String → String
  getCmd : Nat → Command
  /-- Commands that compile a file of a source tree, if the file is known. -/
  compilationCmds : String → String → Option (List Command)

structure Options where
  setsModel : Option String
  weaveInModelAspect : Bool
  weaveInAllAspects : Bool
  weaveInAspects : List String
  deriving DecidableEq, Repr

def Options.none : Options := ⟨.none, false, false, []⟩

/-- A model is a C file or a dictionary with a C file and options. -/
inductive Model where
  | file (cFile : String)
  | dict (cFile : String) (options : Options) (generated : Bool)
  deriving DecidableEq, Repr

namespace Model

/-- `get_model_c_file` -/
def cFile : Model → String
  | .file cFile => cFile
  | .dict cFile _ _ => cFile

def options : Model → Options
  | .file _ => .none
  | .dict _ options _ => options

/-- `'generated' in model`; for a C file this looks for a substring. -/
def isGenerated : Model → Bool
  | .file cFile => cFile.toList.tails.any ("generated".toList.isPrefixOf ·)
  | .dict _ _ generated => generated

/-- `add_model` -/
def addModel (realpath : String) : Model → Model
  | .file _ => .file realpath
  | .dict _ options _ => .dict realpath options false

def aspect (model : Model) : String := (splitext model.cFile).1 ++ ".aspect"

end Model

/-- Options of RSG for a requirement specification. -/
structure Conf where
  models : List Model
  commonModels : List Model
  excludeCommonModels : List String
  commonSetsModel : String
  memorySafety : Bool
  modelCompilerInputFile : String

/-! ## Abstract verification tasks -/

structure PluginAspects where
  plugin : String
  aspects : List String
  deriving DecidableEq, Repr

/-- Either an identifier of a compiler command or a file with a description of a compiler command. -/
inductive CC where
  | command (identifier : Nat)
  | description (command : Command)
  deriving DecidableEq, Repr

structure ExtraCC where
  cc : CC
  inFile : Option String
  generated : Bool
  pluginAspects : Option (List PluginAspects)
  opts : List String
  deriving DecidableEq, Repr

structure Group where
  id : String
  extraCCs : List ExtraCC
  deriving DecidableEq, Repr

/-- An abstract verification task description. -/
structure Desc where
  environmentModel : Option String
  files : List String
  grps : List Group

/-! ## Models and their options -/

section Generate

variable (files : Files) (job : Job) (build : Build) (conf : Conf)

/-- Generated models among files of the task. -/
def generatedModels (paths : List String) : Except String (List String) :=
  paths.foldlM (fun models path =>
    let path := files.here (files.join path)
    if (splitext path).2 = ".c" then .ok (if path ∈ models then models else models ++ [path])
    else if (splitext path).2 = ".aspect" then .ok models
    else .error ("Files with extension \"" ++ (splitext path).2 ++ "\" are not supported")) []

def commonModels : List Model := conf.commonModels.filter (·.cFile ∉ conf.excludeCommonModels)

/-- A model is either common or specific. -/
def checkModels : Except String Unit :=
  (commonModels conf).forM fun common => conf.models.forM fun model =>
    if common.cFile = model.cFile then
      .error ("C file \"" ++ common.cFile ++ "\" is specified in both common and requirement specific models")
    else .ok ()

/-- Actual C files of a model. -/
def locate (generated : List String) (model : Model) : Except String (List Model) :=
  match model.cFile.toList with
  | '$' :: suffix =>
    match generated.filter (suffix.isSuffixOf ·.toList) with
    | [] => .error ("Model C file \"" ++ String.ofList suffix ++ "\" was not generated")
    | found => .ok (found.map (.dict · model.options true))
  | _ => do return [model.addModel (← files.findFileOrDir model.cFile)]

/-- All models: the environment model goes first, and common models go last. -/
def allModels (environmentModel : Option String) (generated : List String) : Except String (List Model) := do
  let environment := environmentModel.toList.map fun path => .dict (files.here (files.join path)) .none true
  checkModels conf
  let specific ← conf.models.mapM (locate files generated)
  let common ← (commonModels conf).mapM fun model => do return model.addModel (← files.findFileOrDir model.cFile)
  return environment ++ specific.flatten ++ common

/-- Aspects of models; they are not mandatory. -/
def aspectsOf (models : List Model) : Except String (List String) := do
  let aspects ← models.filterMapM fun model =>
    match files.text model.aspect with
    | none => .ok none
    | some text =>
      if text = "" then
        .error ("Aspect \"" ++ model.aspect ++ "\" is empty and should be removed from the verification job")
      else .ok (some model.aspect)
  return aspects.insertionSort (· ≤ ·)

/-- Options for the preprocessor. The variable `model` holds the last of all models. -/
def options (model : Model) : List String :=
  ["-DLDV_SETS_MODEL_" ++ (model.options.setsModel.getD conf.commonSetsModel).toUpper] ++
    (if conf.memorySafety then ["-DLDV_MEMORY_SAFETY"] else []) ++
    (job.specificationsSet.map fun set => "-DLDV_SPECS_SET_" ++ set.map fun c => if c = '.' then '_' else c).toList

/-- Compiler options and the working directory for models. -/
def modelCompiler : Except String (List String × String) :=
  if build.preprocessCmds then
    match job.workingSourceTrees with
    | [tree] => .ok ([], tree)
    | _ => .error "There are several working source trees!"
  else
    match job.workingSourceTrees.findSome? (build.compilationCmds · conf.modelCompilerInputFile) with
    | some (command :: _) => .ok (command.opts, command.cwd)
    | _ => .error ("There is no compiler commands for '" ++ conf.modelCompilerInputFile ++ "'")

/-- Aspects to be weaved in a model, and the variable `aspects` afterwards. -/
def modelAspects (aspects : List String) (model : Model) : Except String (Option (List String) × List String) :=
  if model.options.weaveInModelAspect then
    match files.text model.aspect with
    | some _ => .ok (some [files.relpath model.aspect], aspects)
    | none => .error ("Aspect \"" ++ model.aspect ++ "\" to be weaved in model does not exist")
  else if model.options.weaveInAllAspects then .ok (some (aspects.map files.relpath), aspects)
  else if model.options.weaveInAspects ≠ [] then do
    let aspects ← model.options.weaveInAspects.mapM fun path => do return files.relpath (← files.findFileOrDir path)
    return (some aspects, aspects)
  else .ok (none, aspects)

/-- A command for a model. -/
def modelCC (opts : List String) (cwd : String) (model : Model) (aspects : Option (List String)) : ExtraCC where
  cc := .description ⟨[files.realpath model.cFile], opts, cwd⟩
  inFile := none
  generated := model.isGenerated
  pluginAspects := aspects.map fun aspects => [⟨"RSG", aspects⟩]
  opts := []

def modelCCs (opts : List String) (cwd : String) : List String → List Model → Except String (List ExtraCC)
  | _, [] => .ok []
  | aspects, model :: rest => do
    let (own, aspects) ← modelAspects files aspects model
    return modelCC files opts cwd model own :: (← modelCCs opts cwd aspects rest)

/-- A command for an original C file gets aspects of all models and options for the preprocessor. -/
def addAspects (aspects opts : List String) (extraCC : ExtraCC) : ExtraCC :=
  { extraCC with
    pluginAspects := some (extraCC.pluginAspects.getD [] ++ [⟨"RSG", aspects.map files.relpath⟩])
    opts := opts }

/-- `RSG.add_models`. Models of 'extra C files' are dropped before they are looked at. -/
def addModels (desc : Desc) (generated : List String) : Except String Desc := do
  let models ← allModels files conf desc.environmentModel generated
  match models.getLast? with
  | none => return desc
  | some last =>
    let aspects ← aspectsOf files models
    let opts := options job conf last
    let (compilerOpts, cwd) ← modelCompiler job build conf
    let extraCCs ← modelCCs files (compilerOpts ++ opts) cwd aspects (models.insertionSort (·.cFile ≤ ·.cFile))
    let original := desc.grps.map fun grp => { grp with extraCCs := grp.extraCCs.map (addAspects files aspects opts) }
    return { desc with grps := original ++ [⟨"models", extraCCs⟩] }

/-- `RSG.generate_requirement` -/
def generateRequirement (desc : Desc) : Except String Desc := do
  let generated ← generatedModels files desc.files
  let desc ← addModels files job build conf desc generated
  return { desc with files := [] }

end Generate

/-! ## Each model on its own -/

section Alone

variable (files : Files) (job : Job) (conf : Conf) (compilerOpts : List String) (cwd : String) (common : List String)

/-- A model asks for the aspects of all models. -/
def Model.AsksAll (model : Model) : Prop := model.options.weaveInModelAspect = false ∧ model.options.weaveInAllAspects

/-- A command for a model that does not depend on other ones. -/
def aloneCC (model : Model) : Except String ExtraCC := do
  let (own, _) ← modelAspects files common model
  return modelCC files (compilerOpts ++ options job conf model) cwd model own

/-- The aspects that a model chooses by 'weave in aspects'. -/
def chosenAspects (model : Model) : Option (Except String (List String)) :=
  if model.options.weaveInModelAspect || model.options.weaveInAllAspects || model.options.weaveInAspects.isEmpty then none
  else some (model.options.weaveInAspects.mapM fun path => do return files.relpath (← files.findFileOrDir path))

/-- Of the models before a model that asks for the aspects of all models, the last one that chooses aspects, if there is one,
chooses these very aspects. -/
def Undisturbed (models : List Model) : Prop :=
  ∀ before model after found, models = before ++ model :: after → model.AsksAll →
    (before.filterMap (chosenAspects files)).getLast? = some (.ok found) → found.map files.relpath = common.map files.relpath

variable {files job conf compilerOpts cwd common} {aspects aspects' : List String} {own own' : Option (List String)}
  {model last : Model}

/-- Only models that ask for the aspects of all models depend on the variable. -/
theorem modelAspects_own (asked : modelAspects files aspects model = .ok (own, aspects')) :
    ∃ own' after, modelAspects files common model = .ok (own', after) ∧
      (own' = own ↔ (model.AsksAll → aspects.map files.relpath = common.map files.relpath)) := by
  unfold modelAspects at asked ⊢
  unfold Model.AsksAll
  cases byAspect : model.options.weaveInModelAspect with
  | true =>
    rw [byAspect] at asked
    cases text : files.text model.aspect with
    | none => simp [text] at asked
    | some text' => simp_all
  | false =>
    cases byAll : model.options.weaveInAllAspects with
    | true =>
      simp only [byAspect, byAll, Bool.false_eq_true, if_true, if_false] at asked ⊢
      cases asked
      exact ⟨_, _, rfl, by simp [eq_comm]⟩
    | false =>
      simp only [byAspect, byAll, Bool.false_eq_true, if_false] at asked ⊢
      by_cases listed : model.options.weaveInAspects ≠ []
      · rw [if_pos listed] at asked ⊢
        exact ⟨own, aspects', asked, by simp⟩
      · rw [if_neg listed] at asked ⊢
        cases asked
        exact ⟨_, _, rfl, by simp⟩

theorem modelCC_inj {opts opts' : List String} :
    modelCC files opts cwd model own = modelCC files opts' cwd model own' ↔ opts = opts' ∧ own = own' := by
  have injective : Function.Injective fun aspects : List String => [PluginAspects.mk "RSG" aspects] := by
    intro _ _ same
    simpa using same
  simp [modelCC, (Option.map_injective injective).eq_iff]

/-- What the loop does to the variable `aspects`. -/
theorem modelAspects_after (asked : modelAspects files aspects model = .ok (own, aspects')) :
    (chosenAspects files model).getD (.ok aspects) = .ok aspects' := by
  unfold modelAspects at asked
  unfold chosenAspects
  cases byAspect : model.options.weaveInModelAspect with
  | true =>
    rw [byAspect] at asked
    cases text : files.text model.aspect with
    | none => simp [text] at asked
    | some text' => simp_all
  | false =>
    cases byAll : model.options.weaveInAllAspects with
    | true => simp_all
    | false =>
      simp only [byAspect, byAll, Bool.false_eq_true, if_false] at asked
      by_cases listed : model.options.weaveInAspects ≠ []
      · rw [if_pos listed] at asked
        obtain ⟨found, chosen, is⟩ := bind_eq_ok_iff.mp asked
        cases is
        rw [if_neg (by simp [listed]), Option.getD_some]
        exact chosen
      · rw [if_neg listed] at asked
        cases asked
        simp [not_ne_iff.mp listed]

/-- The same when some aspects stand in the variable before the first model. -/
theorem modelCCs_alone_iff_of_start {models : List Model} {extraCCs : List ExtraCC}
    (made : modelCCs files (compilerOpts ++ options job conf last) cwd aspects models = .ok extraCCs) :
    models.mapM (aloneCC files job conf compilerOpts cwd common) = .ok extraCCs ↔
      (∀ model ∈ models, options job conf model = options job conf last) ∧
        ∀ before model after found, models = before ++ model :: after → model.AsksAll →
          (before.filterMap (chosenAspects files)).getLast?.getD (.ok aspects) = .ok found →
          found.map files.relpath = common.map files.relpath := by
  rw [mapM_eq_ok_iff]
  induction models generalizing aspects extraCCs with
  | nil =>
    cases made
    exact iff_of_true .nil ⟨fun _ mem => absurd mem not_mem_nil, by simp⟩
  | cons model rest ih =>
    obtain ⟨⟨own, aspects'⟩, asked, made⟩ := bind_eq_ok_iff.mp made
    obtain ⟨others, rests, is⟩ := bind_eq_ok_iff.mp made
    cases is
    obtain ⟨own', after', alone, same⟩ := @modelAspects_own files common _ _ _ _ asked
    have first : aloneCC files job conf compilerOpts cwd common model =
        .ok (modelCC files (compilerOpts ++ options job conf model) cwd model own') := by
      rw [aloneCC, alone]
      rfl
    -- a model further on sees what this one leaves, unless a later one chooses
    have behind (before : List Model) : ((model :: before).filterMap (chosenAspects files)).getLast?.getD (.ok aspects) =
        (before.filterMap (chosenAspects files)).getLast?.getD (.ok aspects') := by
      rw [← modelAspects_after asked, filterMap_cons]
      cases chosenAspects files model with
      | none => rfl
      | some chosen => rw [getLast?_cons, Option.getD_some, Option.getD_some]
    rw [forall₂_cons, first, Except.ok.injEq, modelCC_inj, append_cancel_left_eq, same, ih rests, forall_mem_cons]
    constructor
    · rintro ⟨⟨opts, here⟩, optsRest, later⟩
      refine ⟨⟨opts, optsRest⟩, fun before asking after found split asks last => ?_⟩
      cases before with
      | nil =>
        cases split
        cases last
        exact here asks
      | cons head before =>
        cases split
        exact later before asking after found rfl asks ((behind before).symm.trans last)
    · rintro ⟨⟨opts, optsRest⟩, all⟩
      refine ⟨⟨opts, fun asks => all [] model rest aspects rfl asks rfl⟩, optsRest, ?_⟩
      intro before asking after found split asks last
      exact all (model :: before) asking after found (congrArg _ split) asks ((behind before).trans last)

/-- The commands for models depend on nothing but the models and the common aspects if and only if all models choose the
same options as the last one, and no model disturbs the ones that ask for the aspects of all models. -/
theorem modelCCs_alone_iff {models : List Model} {extraCCs : List ExtraCC}
    (made : modelCCs files (compilerOpts ++ options job conf last) cwd common models = .ok extraCCs) :
    models.mapM (aloneCC files job conf compilerOpts cwd common) = .ok extraCCs ↔
      (∀ model ∈ models, options job conf model = options job conf last) ∧ Undisturbed files common models := by
  rw [modelCCs_alone_iff_of_start made]
  refine and_congr_right fun _ => ⟨fun all before model after found split asks last => ?_,
    fun undisturbed before model after found split asks last => ?_⟩
  · exact all before model after found split asks (by rw [last, Option.getD_some])
  · cases chosen : (before.filterMap (chosenAspects files)).getLast? with
    | none =>
      rw [chosen] at last
      cases last
      rfl
    | some list =>
      rw [chosen, Option.getD_some] at last
      exact undisturbed before model after found split asks (chosen.trans (congrArg some last))

end Alone

/-- Files that are all found where they are. -/
def anyFiles : Files := ⟨id, id, id, id, .ok, fun _ => some "after: file (\"$this\")"⟩

def anyJob : Job := ⟨"x86_64", none, "", [], false, false⟩

def anyConf : Conf := ⟨[], [], [], "trivial", false, ""⟩

/-- A model with a list of one aspect. -/
def choosy (aspect : String) : Model := .dict "a.c" { Options.none with weaveInAspects := [aspect] } false

/-- A model with all aspects. -/
def askingAll : Model := .dict "b.c" { Options.none with weaveInAllAspects := true } false

theorem choosy_undisturbed : Undisturbed anyFiles ["specifications/a.aspect"] [choosy "a.aspect", askingAll] := by
  intro before model after found split asks last
  cases before with
  | nil => cases last
  | cons head before =>
    cases before with
    | nil =>
      cases split
      cases last
      rfl
    | cons next before => simp at split

/-- The list of the first model is that of all aspects. -/
theorem choosy_alone : ∃ extraCCs,
    modelCCs anyFiles ([] ++ options anyJob anyConf askingAll) "" ["specifications/a.aspect"]
        [choosy "a.aspect", askingAll] = .ok extraCCs ∧
      [choosy "a.aspect", askingAll].mapM (aloneCC anyFiles anyJob anyConf [] "" ["specifications/a.aspect"]) =
        .ok extraCCs :=
  ⟨_, rfl, (modelCCs_alone_iff rfl).mpr ⟨by decide +kernel, choosy_undisturbed⟩⟩

/-- After a model with a list of aspects, the other one gets this list. -/
theorem choosy_askingAll :
    modelCCs anyFiles ([] ++ options anyJob anyConf askingAll) "" ["a.aspect"] [choosy "c.aspect", askingAll] ≠
      [choosy "c.aspect", askingAll].mapM (aloneCC anyFiles anyJob anyConf [] "" ["a.aspect"]) := by
  decide +kernel

end Klever.Core.Rsg
