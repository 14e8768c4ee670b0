import Klever.Core.Rsg
import Klever.Lib.Memo

/-!
# Cache of Weaver

Models that are not generated are the same files for all tasks of a job, so Weaver keeps what it has got for them. An entry
is named after the path of a model and after the aspect to be weaved in. Options of the compiler are not a part of the name,
although RSG makes them of the configuration of a requirement specification. Results are right exactly if requests for the
same entry ask tools for the same.
-/

namespace Klever.Core.Weaver

open Klever.Lib List Option
open Klever.Core.Rsg (Files Job Build Command CC ExtraCC PluginAspects Group Desc)

/-! ## Requests -/

/-- What CIF gets: the aspect is the text to be weaved in, if there is one. -/
structure Weaving where
  infile : String
  aspect : Option String
  opts : List String
  cwd : String
  deriving DecidableEq, Repr

/-- What Aspectator gets to find cross references. -/
structure Parsing where
  infile : String
  opts : List String
  cwd : String
  deriving DecidableEq, Repr

/-- External tools; there is no result if they fail. -/
structure Tools where
  cif : Weaving → Option String
  /-- Additional sources with their cross references -/
  aspectator : Parsing → Option (List (String × String))

/-- Options of Weaver for a requirement specification. -/
structure Conf where
  commonHeaders : List String
  aspectPreprocessingOptions : Option (List String)
  deriving DecidableEq

/-- What a worker of Weaver works on. -/
structure Request where
  files : Files
  conf : Conf
  grpId : String
  extraCC : ExtraCC

/-- A woven in C file, and additional sources if one needs them. -/
structure Result where
  cFile : String
  additionalSrcs : Option (List (String × String))
  deriving DecidableEq, Repr

/-- A directory of the cache. -/
structure CacheDir where
  cFile : Option (String × String)
  additionalSrcs : Option (List (String × String))
  deriving DecidableEq, Repr

/-- `prepare_cif_opts` -/
def prepareCifOpts (build : Build) (opts : List String) (modelOpts : Bool) : List String :=
  (if modelOpts || !build.preprocessCmds then build.filterOpts opts else []) ++ build.extraCifOpts

/-- `define_arch_dependent_macro` -/
def defineArchDependentMacro (job : Job) : String :=
  "-DLDV_" ++ job.architecture.toUpper.map fun c => if c = '-' then '_' else c

/-- Aspects of RSG go first. -/
def aspectsOf (pluginAspects : List PluginAspects) : List String :=
  pluginAspects.foldl (fun aspects plugin =>
    if plugin.plugin = "RSG" then plugin.aspects ++ aspects else aspects ++ plugin.aspects) []

/-- The resulting aspect: empty aspects are skipped, and the others are terminated with a new line. -/
def concatenate (files : Files) (aspects : List String) : Option String :=
  aspects.foldlM (fun text path => do
    let aspect ← files.text (files.join path)
    return if aspect = "" then text else text ++ aspect ++ if aspect.endsWith "\n" then "" else "\n") ""

/-- The name of an output file without its directory. -/
def outfile (infile : String) : String := (Rsg.splitext (Rsg.basename infile)).1 ++ ".i"

namespace Request

variable (job : Job) (build : Build)

/-- Nobody needs cross references of original sources again. -/
def isModel (request : Request) : Bool := request.grpId = "models"

/-- The compiler command and the input file. If input files are preprocessed, the code calls the name of an original source
file as a function. -/
def command (request : Request) : Option (Command × String) :=
  match request.extraCC.cc with
  | .command identifier =>
    if build.preprocessCmds then none
    else do
      let infile ← request.extraCC.inFile <|> (build.getCmd identifier).inFiles.head?
      return (build.getCmd identifier, build.storagePath infile)
  | .description command => do return (command, ← command.inFiles.head?)

/-- The aspect to be weaved in. -/
def aspect (request : Request) : Option (Option String) :=
  match request.extraCC.pluginAspects with
  | none => some none
  | some pluginAspects => (concatenate request.files (aspectsOf pluginAspects)).map some

def opts (request : Request) (command : Command) : List String :=
  command.opts ++ [defineArchDependentMacro job] ++ request.extraCC.opts

def sourceTrees : List String := job.workingSourceTrees.map fun path => "-I" ++ build.storagePath path

/-- Options of `__weave` -/
def cifOpts (conf : Conf) (aspect : Option String) (opts : List String) (isModel : Bool) : List String :=
  ["--general-opts", "-I" ++ job.specifications ++ "/include", "--aspect-preprocessing-opts",
      " ".intercalate (conf.aspectPreprocessingOptions.getD []), "--back-end", "src", "--debug", "QUIET"] ++
    (if job.keepIntermediateFiles then ["--keep"] else []) ++
    (if aspect.isSome then [] else ["--stage", "C-backend"]) ++
    ["--"] ++ conf.commonHeaders.flatMap (["-include", ·]) ++ prepareCifOpts build opts isModel ++ sourceTrees job build

/-- Options of `__get_cross_refs` -/
def aspectatorOpts (opts : List String) : List String :=
  ["-I" ++ job.specifications ++ "/include"] ++ prepareCifOpts build opts true ++ sourceTrees job build ++ ["-fsyntax-only"]

/-- What tools are asked for, unless there is an exception before. -/
def prepare (request : Request) : Option (Weaving × Parsing) := do
  let (command, infile) ← request.command build
  let aspect ← request.aspect
  let opts := request.opts job command
  let cwd := build.storagePath command.cwd
  return (⟨infile, aspect, cifOpts job build request.conf aspect opts request.isModel, cwd⟩,
    ⟨infile, aspectatorOpts job build opts, cwd⟩)

end Request

/-! ## Processing -/

section Process

variable (checksum : String → String) (job : Job) (build : Build) (tools : Tools)

/-- `__weave` and, for models, `__get_cross_refs`: there is no cache. -/
def processDirectly (request : Request) : Option Result := do
  let (weaving, parsing) ← request.prepare job build
  let cFile ← tools.cif weaving
  if request.isModel && !job.originalSourcesOnly then
    return ⟨cFile, some (← tools.aspectator parsing)⟩
  else return ⟨cFile, none⟩

/-- Names of cache directories. -/
def cacheName (weaving : Weaving) : List Char :=
  (checksum weaving.infile).toList.take 32 ++
    match weaving.aspect with
    | some aspect => (checksum aspect).toList.take 32
    | none => []

/-- What gets to a cache directory; if a tool fails, the directory stays as it is. -/
def store (weaving : Weaving) (parsing : Parsing) : CacheDir :=
  match tools.cif weaving with
  | none => ⟨none, none⟩
  | some cFile => ⟨some (outfile weaving.infile, cFile), if job.originalSourcesOnly then none else tools.aspectator parsing⟩

/-- What is got from a cache directory; there is an exception if it misses something. -/
def CacheDir.get (dir : CacheDir) (weaving : Weaving) : Option Result := do
  let (name, cFile) ← dir.cFile
  if name ≠ outfile weaving.infile then none
  else if job.originalSourcesOnly then return ⟨cFile, none⟩
  else return ⟨cFile, some (← dir.additionalSrcs)⟩

/-- `WeaverWorker.process_extra_cc` -/
def processExtraCC (cache : Dict (List Char) CacheDir) (request : Request) : Option Result × Dict (List Char) CacheDir :=
  match request.prepare job build with
  | none => (none, cache)
  | some (weaving, parsing) =>
    if request.isModel && !request.extraCC.generated then
      match cache.get? (cacheName checksum weaving) with
      | some dir => (dir.get job weaving, cache)
      | none =>
        (processDirectly job build tools request, cache.set (cacheName checksum weaving) (store job tools weaving parsing))
    else (processDirectly job build tools request, cache)

/-- Results for a sequence of requests. -/
def processAll (cache : Dict (List Char) CacheDir) : List Request → List (Option Result)
  | [] => []
  | request :: rest =>
    (processExtraCC checksum job build tools cache request).1 ::
      processAll (processExtraCC checksum job build tools cache request).2 rest

/-- The cache is transparent whatever tools are like. -/
def Transparent (requests : List Request) : Prop :=
  ∀ tools, processAll checksum job build tools .empty requests = requests.map (processDirectly job build tools)

/-- The cache directory of a request. -/
def Request.cached (request : Request) : Option (List Char) := do
  let (weaving, _) ← request.prepare job build
  if request.isModel && !request.extraCC.generated then return cacheName checksum weaving else none

/-- Everything that tools are asked for. -/
def Request.asks (request : Request) : Option (Weaving × Option Parsing) :=
  (request.prepare job build).map fun (weaving, parsing) =>
    (weaving, if job.originalSourcesOnly then none else some parsing)

end Process

/-! ## When the cache is transparent -/

section Transparent

variable {checksum : String → String} {job : Job} {build : Build} {requests : List Request} {a b : Request} {k : List Char}

/-- Workers as servers that keep cache directories. -/
def server (job : Job) (build : Build) (tools : Tools) : Memo.Server Request CacheDir (Option Result) where
  make request :=
    ((request.prepare job build).map fun (weaving, parsing) => store job tools weaving parsing).getD ⟨none, none⟩
  use dir request := (request.prepare job build).bind fun (weaving, _) => dir.get job weaving
  plain := processDirectly job build tools

theorem processExtraCC_eq (tools : Tools) (cache : Dict (List Char) CacheDir) (request : Request) :
    processExtraCC checksum job build tools cache request =
      Memo.serve (Request.cached checksum job build) (server job build tools) cache request := by
  rw [processExtraCC, Memo.serve, Request.cached]
  cases prepared : request.prepare job build with
  | none => simp [server, processDirectly, prepared]
  | some asks =>
    obtain ⟨weaving, parsing⟩ := asks
    by_cases caches : (request.isModel && !request.extraCC.generated) = true
    · simp only [caches, if_true, bind_eq_bind, bind_some, Option.pure_def]
      cases cache.get? (cacheName checksum weaving) with
      | none => simp [server, prepared]
      | some dir => simp [server, prepared]
    · simp [caches, server]

theorem processAll_eq (tools : Tools) (cache : Dict (List Char) CacheDir) :
    processAll checksum job build tools cache requests =
      Memo.serveAll (Request.cached checksum job build) (server job build tools) cache requests := by
  induction requests generalizing cache with
  | nil => rfl
  | cons request rest ih => rw [processAll, Memo.serveAll, processExtraCC_eq, ih]

theorem Request.cached_eq_some (named : a.cached checksum job build = some k) :
    ∃ weaving parsing, a.prepare job build = some (weaving, parsing) ∧ a.isModel = true ∧
      cacheName checksum weaving = k := by
  obtain ⟨⟨weaving, parsing⟩, prepared, named⟩ := bind_eq_some_iff.mp named
  dsimp only at named
  split at named
  next caches => exact ⟨weaving, parsing, prepared, (Bool.and_eq_true_iff.mp caches).1, some.inj named⟩
  next => cases named

/-- Tools that tell just one request from all others. -/
def telling (weaving : Weaving) (parsing : Parsing) : Tools where
  cif other := some (if other = weaving then "1" else "0")
  aspectator other := some (if other = parsing then [("1", "")] else [("0", "")])

/-- The result from what tools have given. -/
def resultOf (job : Job) (tools : Tools) (weaving : Weaving) (parsing : Parsing) : Option Result :=
  (tools.cif weaving).bind fun cFile =>
    if job.originalSourcesOnly then some ⟨cFile, none⟩
    else (tools.aspectator parsing).map fun srcs => ⟨cFile, some srcs⟩

theorem processDirectly_eq {weaving : Weaving} {parsing : Parsing} (prepared : a.prepare job build = some (weaving, parsing))
    (model : a.isModel = true) (tools : Tools) :
    processDirectly job build tools a = resultOf job tools weaving parsing := by
  simp only [processDirectly, resultOf, prepared, model]
  cases job.originalSourcesOnly <;> simp [map_eq_bind]

theorem store_get (tools : Tools) (weaving weaving' : Weaving) (parsing : Parsing) :
    (store job tools weaving parsing).get job weaving' =
      if outfile weaving.infile ≠ outfile weaving'.infile then none else resultOf job tools weaving parsing := by
  rw [store, resultOf]
  cases tools.cif weaving with
  | none => simp [CacheDir.get]
  | some cFile =>
    by_cases named : outfile weaving.infile = outfile weaving'.infile
    · cases original : job.originalSourcesOnly <;> simp [CacheDir.get, named, original, map_eq_bind]
    · simp [CacheDir.get, named]

/-- Results of telling tools tell what they have been asked for. -/
theorem resultOf_telling {weaving weaving' : Weaving} {parsing parsing' : Parsing}
    (same : resultOf job (telling weaving' parsing') weaving parsing =
      resultOf job (telling weaving' parsing') weaving' parsing') :
    weaving = weaving' ∧ (job.originalSourcesOnly = false → parsing = parsing') := by
  rw [resultOf, resultOf, telling, bind_some, bind_some, if_pos rfl] at same
  have asked : weaving = weaving' := by
    by_contra differs
    cases original : job.originalSourcesOnly <;> simp [original, differs] at same
  refine ⟨asked, fun all => ?_⟩
  by_contra differs
  simp [all, asked, differs] at same

/-- Results for a request from the cache directory of another one are right for all tools exactly if both requests ask tools
for the same. -/
theorem get_eq_iff (named : a.cached checksum job build = some k) (named' : b.cached checksum job build = some k) :
    (∀ tools, (server job build tools).use ((server job build tools).make a) b = (server job build tools).plain b) ↔
      a.asks job build = b.asks job build := by
  obtain ⟨weaving, parsing, prepared, -, -⟩ := Request.cached_eq_some named
  obtain ⟨weaving', parsing', prepared', model, -⟩ := Request.cached_eq_some named'
  have uses (tools : Tools) : (server job build tools).use ((server job build tools).make a) b =
      (store job tools weaving parsing).get job weaving' := by
    simp [server, prepared, prepared']
  have directly (tools : Tools) : (server job build tools).plain b = resultOf job tools weaving' parsing' :=
    processDirectly_eq prepared' model tools
  simp only [uses, directly, store_get, Request.asks, prepared, prepared', map_some, some.injEq, Prod.mk.injEq]
  constructor
  · intro same
    have told := same (telling weaving' parsing')
    split at told
    next =>
      -- telling tools never fail
      cases original : job.originalSourcesOnly <;> simp [resultOf, telling, original] at told
    next =>
      obtain ⟨asked, parsed⟩ := resultOf_telling told
      refine ⟨asked, ?_⟩
      cases original : job.originalSourcesOnly with
      | true => rfl
      | false => simpa using parsed original
  · rintro ⟨rfl, asked⟩ tools
    rw [if_neg (not_not.mpr rfl)]
    cases original : job.originalSourcesOnly with
    | true => simp [resultOf, original]
    | false =>
      rw [original] at asked
      rw [some.inj asked]

/-- Results with the cache are the same as without it, whatever CIF and Aspectator are like, exactly if requests for one cache
directory ask tools for the same. -/
theorem transparent_iff : Transparent checksum job build requests ↔
    requests.Pairwise (Memo.Agree (Request.cached checksum job build) (Request.asks job build)) := by
  rw [← Memo.serveAll_forall_iff (server job build) fun named named' => get_eq_iff named named']
  refine forall_congr' fun tools => ?_
  rw [processAll_eq]
  rfl

end Transparent

/-! ## Tasks of a job -/

/-- A verification task when it comes to RSG: its files, options of plugins and its description. -/
structure Task where
  files : Files
  rsg : Rsg.Conf
  weaver : Conf
  desc : Desc

/-- Requests of a task: Weaver works on what RSG has made. -/
def Task.requests (job : Job) (build : Build) (task : Task) : Except String (List Request) := do
  let desc ← Rsg.generateRequirement task.files job build task.rsg task.desc
  return desc.grps.flatMap fun grp => grp.extraCCs.map fun extraCC => ⟨task.files, task.weaver, grp.id, extraCC⟩

variable {job : Job} {build : Build} {opts : List String} {cwd : String}

theorem prepare_eq {request : Request} {infile : String} (cc : request.extraCC.cc = .description ⟨[infile], opts, cwd⟩)
    (own : request.extraCC.opts = []) :
    request.prepare job build = request.aspect.map fun aspect =>
      let opts := opts ++ [defineArchDependentMacro job]
      (⟨infile, aspect, Request.cifOpts job build request.conf aspect opts request.isModel, build.storagePath cwd⟩,
        ⟨infile, Request.aspectatorOpts job build opts, build.storagePath cwd⟩) := by
  simp [Request.prepare, Request.command, cc, Request.opts, own, map_eq_bind]

/-! ### Examples -/

def kernel : Job := ⟨"x86_64", some "3.14", "specifications", ["/linux"], false, false⟩

def kernelBuild : Build where
  preprocessCmds := false
  extraCifOpts := []
  filterOpts := id
  storagePath := id
  getCmd _ := ⟨[], [], "/linux"⟩
  compilationCmds _ file := some [⟨[file], ["-nostdinc"], "/linux"⟩]

variable (memorySafety : Bool)

/-- Just the common model of errors for a requirement specification. -/
def verifies : Task where
  files := ⟨id, id, id, id, fun path => if path = "specifications/linux/err.c" then .ok path else .error path, fun _ => none⟩
  rsg := ⟨[], [.file "linux/err.c"], [], "counter", memorySafety, "scripts/mod/empty.c"⟩
  weaver := ⟨["ldv/verifier/memory.h"], none⟩
  desc := ⟨none, [], []⟩

/-- The command for the common model. -/
def compiles (opts : List String) : ExtraCC :=
  ⟨.description ⟨["specifications/linux/err.c"], ["-nostdinc"] ++ opts, "/linux"⟩, none, false, none, []⟩

/-- Options for the common model. -/
def errOpts : List String :=
  ["-DLDV_SETS_MODEL_COUNTER"] ++ (if memorySafety then ["-DLDV_MEMORY_SAFETY"] else []) ++ ["-DLDV_SPECS_SET_3_14"]

theorem verifies_grps :
    (Rsg.generateRequirement (verifies memorySafety).files kernel kernelBuild (verifies memorySafety).rsg
      (verifies memorySafety).desc).toOption.map Desc.grps = some [⟨"models", [compiles (errOpts memorySafety)]⟩] := by
  revert memorySafety
  decide +kernel

/-- The request of the task. -/
def asksFor : Request :=
  ⟨(verifies memorySafety).files, (verifies memorySafety).weaver, "models", compiles (errOpts memorySafety)⟩

theorem verifies_requests : (verifies memorySafety).requests kernel kernelBuild = .ok [asksFor memorySafety] := by
  have grps := verifies_grps memorySafety
  rw [Task.requests]
  cases made : Rsg.generateRequirement (verifies memorySafety).files kernel kernelBuild (verifies memorySafety).rsg
      (verifies memorySafety).desc with
  | error message =>
    rw [made] at grps
    cases grps
  | ok desc =>
    rw [made] at grps
    have grps : desc.grps = _ := some.inj grps
    refine bind_eq_ok_iff.mpr ⟨desc, rfl, ?_⟩
    rw [grps]
    rfl

/-- What CIF is asked for. -/
def weavesIn : Weaving where
  infile := "specifications/linux/err.c"
  aspect := none
  opts := Request.cifOpts kernel kernelBuild ⟨["ldv/verifier/memory.h"], none⟩ none
    (["-nostdinc"] ++ errOpts memorySafety ++ [defineArchDependentMacro kernel]) true
  cwd := "/linux"

/-- Two tasks of a job share a model, and it matters for the model whether memory safety is verified. The second task gets
what has been made for the first one. -/
theorem memorySafety_mixed : ∃ requests requests',
    (verifies false).requests kernel kernelBuild = .ok requests ∧
    (verifies true).requests kernel kernelBuild = .ok requests' ∧
      ∀ checksum, ¬ Transparent checksum kernel kernelBuild (requests ++ requests') := by
  refine ⟨_, _, verifies_requests false, verifies_requests true, fun checksum transparent => ?_⟩
  have prepared (memorySafety : Bool) :
      ∃ parsing, (asksFor memorySafety).prepare kernel kernelBuild = some (weavesIn memorySafety, parsing) :=
    ⟨_, prepare_eq rfl rfl⟩
  have named (memorySafety : Bool) : (asksFor memorySafety).cached checksum kernel kernelBuild =
      some (cacheName checksum (weavesIn true)) := by
    obtain ⟨parsing, prepared⟩ := prepared memorySafety
    rw [Request.cached, prepared]
    rfl
  have same (tools : Tools) : (server kernel kernelBuild tools).use ((server kernel kernelBuild tools).make (asksFor false))
      (asksFor true) = (server kernel kernelBuild tools).plain (asksFor true) := by
    have firsts := Memo.Keeps.empty.serveAll_eq_iff.mp ((processAll_eq tools .empty).symm.trans (transparent tools))
    refine firsts.2.1 _ _ (named true) ?_
    rw [nil_append, find?_singleton, named false]
    simp
  have asks := (get_eq_iff (named false) (named true)).mp same
  obtain ⟨parsing, prepared₁⟩ := prepared false
  obtain ⟨parsing', prepared₂⟩ := prepared true
  have differ : weavesIn false ≠ weavesIn true := by decide +kernel
  exact differ (congrArg Prod.fst (some.inj asks))

end Klever.Core.Weaver
