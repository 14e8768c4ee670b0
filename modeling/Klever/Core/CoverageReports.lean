import Klever.Core.TotalCoverage

/-!
# Reports on code coverage

`convert_coverage` writes a report for each file that is covered and for each C source file that is not. It deletes
covered files from the table of source files. `collect_total_coverage` gives one table to all requirements of
a sub-job, so files that are covered for a requirement are not reported as uncovered for those after it.
-/

namespace Klever.Core

open Klever.Lib List

/-- The number of lines of a source file, and where its functions are. -/
structure SrcInfo where
  lines : Nat
  functions : List Int
  deriving DecidableEq

/-- Statistics and the report of a file. -/
inductive FileReport where
  | covered (stats : Nat × Nat × Nat × Nat) (lines functions : Dict Int Int) (notes : Dict Int Note)
  | uncovered (stats : Nat × Nat) (functions : List Int)
  deriving DecidableEq

def FileCoverage.report (info : FileCoverage) : FileReport :=
  .covered (info.coveredLines.values.countP (· ≠ 0), info.coveredLines.values.length,
    info.coveredFunctions.values.countP (· ≠ 0), info.coveredFunctions.values.length) info.coveredLines
    info.coveredFunctions info.notes

def SrcInfo.report (info : SrcInfo) : FileReport := .uncovered (info.lines, info.functions.length) info.functions

def isC (file : String) : Bool := ".c".toList.isSuffixOf file.toList

/-- `convert_coverage`: reports by files, and the table of source files after it. -/
def convertCoverage (coverage : CoverageInfo) (src : Dict String SrcInfo) : Dict String FileReport × Dict String SrcInfo :=
  let src := src.filter fun file _ => file ∉ coverage.keys
  (.ofList (coverage.items.map (fun e => (e.1, e.2.report)) ++
    (src.items.filter (isC ·.1)).map fun e => (e.1, e.2.report)), src)

/-- Requirements are converted one after another. -/
def convertEach (src : Dict String SrcInfo) : List (String × CoverageInfo) → List (String × Dict String FileReport)
  | [] => []
  | (requirement, coverage) :: rest =>
    (requirement, (convertCoverage coverage src).1) :: convertEach (convertCoverage coverage src).2 rest

/-- When a sub-job ends, reports of each requirement depend on its coverage and the original table only. -/
def Independent (s : Collector) (keep : Bool) (subJob : String) (src : Dict String SrcInfo) : Prop :=
  ∀ r ∈ s.finish keep subJob, convertEach src r.2 =
    r.2.map fun (requirement, coverage) => (requirement, (convertCoverage coverage src).1)

variable {src : Dict String SrcInfo} {p : String → Bool} {coverage : CoverageInfo}

/-- Files may be absent from the table if they are covered or are not C source files. -/
theorem convertCoverage_filter : (convertCoverage coverage (src.filter fun file _ => p file)).1 =
    (convertCoverage coverage src).1 ↔ ∀ file ∈ src.keys, isC file → file ∉ coverage.keys → p file := by
  constructor
  · intro same file mem c new
    obtain ⟨info, found⟩ := Dict.mem_keys_iff.mp mem
    have there : file ∈ (convertCoverage coverage src).1.keys := by
      refine Dict.mem_keys_ofList.mpr (List.mem_map.mpr ⟨(file, info.report), mem_append_right _ ?_, rfl⟩)
      refine List.mem_map.mpr ⟨(file, info), ?_, rfl⟩
      simp [Dict.filter, Dict.mem_items_iff, found, c, new]
    rw [← same] at there
    obtain ⟨_, here, rfl⟩ := List.mem_map.mp (Dict.mem_keys_ofList.mp there)
    obtain here | here := mem_append.mp here
    · obtain ⟨e, covered, rfl⟩ := List.mem_map.mp here
      exact absurd (List.mem_map.mpr ⟨e, covered, rfl⟩) new
    · obtain ⟨e, left, rfl⟩ := List.mem_map.mp here
      exact (mem_filter.mp (mem_filter.mp (mem_filter.mp left).1).1).2
  · intro kept
    have same : ((src.filter fun file _ => p file).filter fun file _ => file ∉ coverage.keys).items.filter (isC ·.1) =
        (src.filter fun file _ => file ∉ coverage.keys).items.filter (isC ·.1) := by
      simp only [Dict.filter, filter_filter]
      refine filter_congr fun e mem => ?_
      have := kept e.1 (List.mem_map_of_mem mem)
      grind
    simp only [convertCoverage, same]

theorem convertEach_filter {converted : List (String × CoverageInfo)} :
    convertEach (src.filter fun file _ => p file) converted =
      (converted.map fun (requirement, coverage) => (requirement, (convertCoverage coverage src).1)) ↔
    (converted.Pairwise fun first second => ∀ file ∈ src.keys, isC file → file ∈ first.2.keys → file ∈ second.2.keys) ∧
      ∀ each ∈ converted, ∀ file ∈ src.keys, isC file → file ∉ each.2.keys → p file := by
  induction converted generalizing p with
  | nil => simp [convertEach]
  | cons first rest ih =>
    obtain ⟨requirement, coverage⟩ := first
    have left : (convertCoverage coverage (src.filter fun file _ => p file)).2 =
        src.filter fun file _ => p file && decide (file ∉ coverage.keys) := by
      simp only [convertCoverage, Dict.filter, filter_filter, Dict.mk.injEq]
      exact filter_congr fun _ _ => Bool.and_comm ..
    rw [convertEach, map_cons, cons.injEq, Prod.mk.injEq, convertCoverage_filter, left, ih, pairwise_cons,
      forall_mem_cons]
    simp only [Bool.and_eq_true, decide_eq_true_eq]
    constructor
    · rintro ⟨⟨-, here⟩, later, both⟩
      refine ⟨⟨fun each mem file known c covered => ?_, later⟩, here, fun each mem file known c new => ?_⟩
      · by_contra new
        exact (both each mem file known c new).2 covered
      · exact (both each mem file known c new).1
    · rintro ⟨⟨covers, later⟩, here, both⟩
      refine ⟨⟨trivial, here⟩, later, fun each mem file known c new => ⟨both each mem file known c new, fun covered => ?_⟩⟩
      exact new (covers each mem file known c covered)

/-- Reports are independent exactly if C source files that are covered for a requirement are covered for all after it. -/
theorem independent_iff {s : Collector} {keep : Bool} {subJob : String} : Independent s keep subJob src ↔
    ∀ r ∈ s.finish keep subJob, r.2.Pairwise fun first second =>
      ∀ file ∈ src.keys, isC file → file ∈ first.2.keys → file ∈ second.2.keys := by
  have whole : src = src.filter fun _ _ => true := by simp [Dict.filter]
  refine forall₂_congr fun r _ => ?_
  have each := @convertEach_filter src (fun _ => true) r.2
  rw [← whole] at each
  simpa using each

/-- The second requirement has no report on the file that the first one covers. -/
theorem covered_not_reported : ¬ ∀ s ∈ Collector.run false (.initial ["s"])
      [.coverage "s" "r1" (.ofList [("a.c", .blank 0)]), .coverage "s" "r2" (.ofList [("b.c", .blank 0)])],
    Independent s false "s" (.ofList [("a.c", ⟨1, []⟩)]) := by
  unfold Independent
  decide +kernel

end Klever.Core
