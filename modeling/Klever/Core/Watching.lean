import Klever.Core.Progress

/-!
# The end of the watch

What the watcher knows at the beginning of an iteration follows from messages and endings that have come so far, and
Bridge knows the total numbers as soon as they are determined. So if nothing is late the watcher stops at the latest when
everything has come, and Bridge has got complete numbers by then. A sub-job that fails after it has announced its tasks
shows that this is not so in general.
-/

namespace Klever.Core.Progress

open Klever.Lib List Option PW

variable {plan : Plan} {env : Nat → Seen} {n : Nat} {pw : PW} {name : Name}
  {results : List (Name × Status)} {totals : List (Name × Int)} {endings : Name → Option Status}
  {keys items later : Dict Name Status}

theorem mem_unknown_iff {status : Status} : (name, status) ∈ pw.unknown keys ↔
    keys.get? name = some status ∧ pw.subjobsCache.get? name = none := by
  rw [unknown, mem_filter, Dict.mem_items_iff, isNone_iff_eq_none]

theorem solvedSubjobs_ne_zero_iff : pw.solvedSubjobs ≠ 0 ↔ ∃ name, pw.subjobsCache.get? name = some .finished := by
  rw [solvedSubjobs, ← Nat.pos_iff_ne_zero, countP_pos_iff]
  constructor
  · rintro ⟨status, mem, is⟩
    obtain rfl := of_decide_eq_true is
    exact Dict.mem_values_iff.mp mem
  · intro found
    exact ⟨.finished, Dict.mem_values_iff.mpr found, decide_eq_true rfl⟩

/-- What is written down about sub-jobs. -/
structure Endings (plan : Plan) (endings : Name → Option Status) (keys items later : Dict Name Status) : Prop where
  older : ∀ name status, endings name = some status → keys.get? name = some status
  keys : ∀ name status, keys.get? name = some status → items.get? name = some status
  items : ∀ name status, items.get? name = some status → later.get? name = some status
  planned : ∀ name status, later.get? name = some status →
    plan.subjobs.isSome ∧ ∃ k < plan.number, name = .id k ∧ status = plan.ending k

/-- Failures that are written down are of sub-jobs that do not end normally. -/
theorem Endings.failed (ends : Endings plan endings keys items later)
    (found : later.get? name = some .failed) : ∃ k < plan.number, name = .id k ∧ ¬ plan.normal k = true := by
  obtain ⟨subjobs, k, lt, is, ending⟩ := ends.planned name .failed found
  refine ⟨k, lt, is, ?_⟩
  rw [Plan.normal, decide_eq_true_eq, not_or, ← ending]
  refine ⟨fun job => ?_, nofun⟩
  rw [isNone_iff_eq_none.mp job] at subjobs
  cases subjobs

/-- An iteration with new endings. -/
theorem checkSubjobs_eq (time : Nat) (new : (pw.unknown keys).length > 0) {pw' : PW}
    (is : pw' = ((pw.unknown items).filter fun ending => ending.2 = .failed).foldl
      (fun pw ending => pw.failSubjob ending.1) pw) :
    pw.checkSubjobs keys items later time = { pw' with
      subjobsUpdateTime := if (pw.unknown later).any fun ending => ending.2 = .finished then some time
        else pw.subjobsUpdateTime
      subjobsCache := (pw.unknown keys).foldl (fun cache ending => cache.set ending.1 ending.2) pw.subjobsCache } := by
  have frame := failSubjobs_frame ((pw.unknown items).filter fun ending => ending.2 = .failed) pw
  rw [← is] at frame
  have same : pw'.unknown later = pw.unknown later := by rw [frame]; rfl
  rw [checkSubjobs]
  simp only [if_pos new, ← is, same]
  split <;> rw [frame]

theorem checkSubjobs_of_old (time : Nat) (old : ¬ (pw.unknown keys).length > 0) :
    pw.checkSubjobs keys items later time = pw := by
  rw [checkSubjobs]
  simp [if_neg old]

/-- New failures are added to numbers of tasks. -/
theorem Endings.mem_failures (ends : Endings plan endings keys items later) {k : Nat} (fails : ¬ plan.normal k = true)
    (known : (keys.get? (.id k)).isSome) (new : pw.subjobsCache.get? (.id k) = none) :
    (.id k, .failed) ∈ (pw.unknown items).filter fun ending => ending.2 = .failed := by
  obtain ⟨status, found⟩ := isSome_iff_exists.mp known
  have here := ends.keys _ _ found
  obtain ⟨-, k', -, same, ending⟩ := ends.planned _ _ (ends.items _ _ here)
  cases same
  have failed : status = .failed := by
    rw [Plan.normal, decide_eq_true_eq, not_or, ← ending] at fails
    cases status with
    | finished => exact absurd rfl fails.2
    | failed => rfl
  rw [failed] at here
  rw [mem_filter, mem_unknown_iff]
  exact ⟨⟨here, new⟩, rfl⟩

theorem Data.checkSubjobs (data : Data plan results totals endings pw) (ends : Endings plan endings keys items later)
    (time : Nat) : Data plan results totals keys.get? (pw.checkSubjobs keys items later time) := by
  have cache : ∀ name, (pw.checkSubjobs keys items later time).subjobsCache.get? name = keys.get? name :=
    cache_checkSubjobs fun name status known => ends.older name status ((data.cache name).symm.trans known)
  by_cases new : (pw.unknown keys).length > 0
  · obtain ⟨pw', is⟩ : ∃ pw', pw' = ((pw.unknown items).filter fun ending => ending.2 = .failed).foldl
      (fun pw ending => pw.failSubjob ending.1) pw := ⟨_, rfl⟩
    have frame := failSubjobs_frame ((pw.unknown items).filter fun ending => ending.2 = .failed) pw
    rw [← is] at frame
    obtain ⟨tally, drained, grows, all⟩ := failSubjobs_spec _ (fun ending mem => by
      rw [mem_filter, mem_unknown_iff, decide_eq_true_eq] at mem
      obtain ⟨⟨found, -⟩, is⟩ := mem
      rw [is] at found
      exact ends.failed (ends.items _ _ found)) data.tally data.drained is
    rw [checkSubjobs_eq time new is] at cache ⊢
    refine ⟨?_, ⟨tally.solved, tally.failed, tally.ids⟩, ?_, ?_, cache, ?_, ?_, ?_⟩
    · rw [frame]
      exact data.mode
    · exact ⟨drained.number, drained.right, drained.queue, drained.known⟩
    · intro k lt fails known
      cases old : pw.subjobsCache.get? (.id k) with
      | some status =>
        rw [data.cache] at old
        exact grows _ (data.failures k lt fails (by rw [old]; rfl))
      | none => exact all (.id k, .failed) (ends.mem_failures fails known old)
    · rw [frame]
      exact data.updated
    · rw [frame]
      exact data.appeared
    · intro solved
      obtain ⟨name, found⟩ := solvedSubjobs_ne_zero_iff.mp solved
      rw [cache] at found
      split
      next => rfl
      next old =>
        refine data.ended (solvedSubjobs_ne_zero_iff.mpr ⟨name, ?_⟩)
        cases known : pw.subjobsCache.get? name with
        | some status =>
          have same := ends.older name status ((data.cache name).symm.trans known)
          rw [found] at same
          exact same.symm
        | none =>
          refine absurd (List.any_eq_true.mpr ⟨(name, .finished), ?_, decide_eq_true rfl⟩) old
          exact mem_unknown_iff.mpr ⟨ends.items _ _ (ends.keys _ _ found), known⟩
  · rw [checkSubjobs_of_old time new] at cache ⊢
    have same : keys.get? = endings := by
      ext1 name
      rw [← cache, data.cache]
    rw [same]
    exact data

/-- Data at the beginning of an iteration. -/
def DataAt (plan : Plan) (env : Nat → Seen) (n : Nat) : PW → Prop :=
  Data plan (resultsUntil env n) (totalsUntil env n) (endingsBefore env n)

theorem Faithful.ends (faithful : Faithful plan env) (n : Nat) :
    Endings plan (endingsBefore env n) (env n).keys (env n).items (env n).later where
  older := by
    cases n with
    | zero => exact nofun
    | succ n =>
      intro name status known
      exact faithful.later n name status (faithful.items n name status (faithful.keys n name status known))
  keys := faithful.keys n
  items := faithful.items n
  planned := faithful.endings n

/-- Endings stay known. -/
theorem Faithful.endingsBefore_isSome (faithful : Faithful plan env) {m : Nat} (lt : m < n)
    (seen : ((env m).keys.get? name).isSome) : (endingsBefore env n name).isSome := by
  induction n, lt using Nat.le_induction with
  | base => exact seen
  | succ n lt ih =>
    obtain ⟨status, known⟩ := isSome_iff_exists.mp ih
    exact isSome_iff_exists.mpr ⟨status, (faithful.ends n).older name status known⟩

/-- Only sub-jobs that end normally put messages. -/
theorem Timely.messages (timely : Timely plan env) (faithful : Faithful plan env) (n : Nat) :
    plan.Announced (env n).totals := by
  intro message mem
  obtain ⟨k, lt, rfl⟩ := faithful.totals n message mem
  have normal : plan.normal k = true := by
    by_contra fails
    refine (timely.quiet (n + 1) k lt fails).2 ?_
    rw [totalsUntil_succ]
    exact mem_append_right _ mem
  refine ⟨k, lt, ?_⟩
  rw [Plan.key, Plan.weight, if_pos normal, if_pos normal]

/-- What is received. -/
abbrev PW.drain (pw : PW) (seen : Seen) : PW := (pw.drainResults seen.results seen.time).drainTotals seen.totals

/-- Whether tasks have started. -/
abbrev PW.begin (pw : PW) (seen : Seen) : PW := (pw.drain seen).checkFirstTask seen.flag seen.time

theorem PW.gather_eq (seen : Seen) : pw.gather seen =
    (pw.begin seen).checkTotal.checkSubjobs seen.keys seen.items seen.later seen.time := rfl

theorem gather_frame (pw : PW) (seen : Seen) : ∃ total failed finished updated cache,
    pw.gather seen = { (pw.begin seen).checkTotal with
      totalTasksData := total, failedTasksData := failed, finishedTasksData := finished
      subjobsUpdateTime := updated, subjobsCache := cache } := by
  rw [gather_eq]
  by_cases new : ((pw.begin seen).checkTotal.unknown seen.keys).length > 0
  · rw [checkSubjobs_eq _ new rfl, failSubjobs_frame]
    exact ⟨_, _, _, _, _, rfl⟩
  · rw [checkSubjobs_of_old _ new]
    exact ⟨_, _, _, _, _, rfl⟩

/-- Data before endings are looked at. -/
theorem DataAt.drain (faithful : Faithful plan env) (timely : Timely plan env) (data : DataAt plan env n pw) :
    Data plan (resultsUntil env (n + 1)) (totalsUntil env (n + 1)) (endingsBefore env n) (pw.drain (env n)) := by
  have next := (data.drainResults (env n).time fun message mem => by
    obtain ⟨k, -, is⟩ := faithful.owner n message mem
    exact ⟨k, is⟩).drainTotals (timely.messages faithful n)
  rwa [← resultsUntil_succ, ← totalsUntil_succ] at next

theorem DataAt.gather (faithful : Faithful plan env) (timely : Timely plan env) (data : DataAt plan env n pw) :
    DataAt plan env (n + 1) (pw.gather (env n)) ∧
      ((env n).flag = true → (pw.gather (env n)).tasksStartTime.isSome) := by
  obtain ⟨next, starts⟩ := (data.drain faithful timely).checkFirstTask (env n).flag (env n).time
  refine ⟨next.checkTotal.checkSubjobs (faithful.ends n) (env n).time, ?_⟩
  obtain ⟨_, _, _, _, _, is⟩ := gather_frame pw (env n)
  rw [is]
  obtain ⟨_, _, is⟩ := checkTotal_frame (pw.begin (env n))
  rw [is]
  exact starts

/-! ## Numbers never exceed totals -/

/-- Each message belongs to one sub-job. -/
theorem length_eq_sum_countP {number : Nat} (messages : List (Name × Status))
    (owner : ∀ message ∈ messages, ∃ k < number, message.1 = .identifier k) :
    (messages.length : Int) = ((List.range number).map fun k => (messages.countP (·.1 = .identifier k) : Int)).sum := by
  induction messages with
  | nil => simp
  | cons message rest ih =>
    obtain ⟨k₀, lt, is⟩ := owner message mem_cons_self
    have counts : (fun k => ((message :: rest).countP (·.1 = .identifier k) : Int)) =
        fun k => (rest.countP (·.1 = .identifier k) : Int) + if k = k₀ then 1 else 0 := by
      ext1 k
      rw [countP_cons, is]
      simp only [Name.identifier.injEq, decide_eq_true_eq, @eq_comm _ k₀]
      push_cast
      rfl
    have once : ((List.range number).map fun k => if k = k₀ then (1 : Int) else 0).sum = 1 := by
      rw [sum_map_ite_eq, count_eq_one_of_mem nodup_range (mem_range.mpr lt)]
      simp
    rw [counts, sum_map_add, ← ih fun other mem => owner other (mem_cons_of_mem _ mem), once, length_cons]
    push_cast
    rfl

theorem Faithful.owners (faithful : Faithful plan env) (n : Nat) :
    ∀ message ∈ resultsUntil env n, ∃ k < plan.number, message.1 = .identifier k := by
  intro message mem
  obtain ⟨i, -, mem⟩ := mem_flatMap.mp mem
  exact faithful.owner i message mem

variable {results : List (Name × Status)}

/-- A task is either solved or failed. -/
theorem Tally.total (tally : Tally results pw) : pw.solvedTasks + pw.failedTasks = results.length := by
  rw [tally.solved, tally.failed, length_eq_countP_add_countP (·.2 = .finished)]
  have other : (fun message : Name × Status => decide (message.2 = .failed)) =
      fun message => decide ¬ decide (message.2 = .finished) = true := by
    ext1 message
    cases message.2 <;> rfl
  rw [other]
  push_cast
  rfl

/-- The number of done tasks does not exceed the number of all ones. -/
theorem DataAt.tasks_le (faithful : Faithful plan env) (timely : Timely plan env) (data : DataAt plan env n pw) :
    pw.solvedTasks + pw.failedTasks ≤ plan.total := by
  rw [data.tally.total, length_eq_sum_countP _ (faithful.owners n)]
  refine sum_le_sum fun k mem => ?_
  split
  next => exact_mod_cast faithful.results n k
  next fails => exact_mod_cast (timely.quiet n k (mem_range.mp mem) fails).1.le

/-- It is that number as soon as all messages have come. -/
theorem DataAt.tasks_eq (faithful : Faithful plan env) (timely : Timely plan env) (data : DataAt plan env n pw)
    (arrived : ∀ k < plan.number, plan.normal k → Arrived plan env n k) :
    pw.solvedTasks + pw.failedTasks = plan.total := by
  rw [data.tally.total, length_eq_sum_countP _ (faithful.owners n)]
  refine congrArg List.sum (map_congr_left fun k mem => ?_)
  have lt := mem_range.mp mem
  split
  next normal => exact_mod_cast (arrived k lt normal).1
  next fails => exact_mod_cast (timely.quiet n k lt fails).1

/-- The total is known when totals have come and failures have been seen. -/
theorem Data.totalNumber_eq (data : Data plan results totals endings pw)
    (arrived : ∀ k < plan.number, if plan.normal k then (.identifier k, (plan.tasks k : Int)) ∈ totals
      else (endings (.id k)).isSome) : pw.totalNumber = some plan.total := by
  have iff {total : Int} := @totalNumber_eq_some_iff plan pw data.drained.number data.drained.right total
  by_contra differs
  have missing : pw.totalNumber = none := by
    rw [eq_none_iff_forall_ne_some]
    intro total known
    exact differs ((iff.mp known).1 ▸ known)
  refine differs (iff.mpr ⟨rfl, fun k lt => ?_⟩)
  have come := arrived k lt
  rw [Plan.key]
  split
  next normal =>
    rw [if_pos normal] at come
    exact data.drained.known missing _ come
  next fails =>
    rw [if_neg fails] at come
    exact data.failures k lt fails come

/-- The percent is one hundred exactly when everything is done. -/
theorem percent_eq_hundred_iff {solved failed total : Int} (nonneg : 0 ≤ solved) (le : solved + failed ≤ total) :
    percent solved failed total = 100 ↔ solved + failed = total := by
  rw [percent]
  split
  next differs =>
    have pos : 0 < total - failed := by omega
    rw [Int.tdiv_eq_ediv_of_nonneg (by omega)]
    constructor
    · intro percent
      have := Int.ediv_mul_le (100 * solved) pos.ne'
      rw [percent] at this
      omega
    · intro all
      have : solved = total - failed := by omega
      rw [this, Int.mul_ediv_cancel _ pos.ne']
  next same => exact iff_of_true rfl (by omega)

theorem solved_ne_zero_of_percent {solved failed total : Int} (pos : 0 < percent solved failed total)
    (rest : percent solved failed total < 100) : solved ≠ 0 := by
  rintro rfl
  rw [percent] at pos rest
  split at pos
  next => simp at pos
  next same =>
    rw [if_neg same] at rest
    exact absurd rest (lt_irrefl 100)

/-! ## What Bridge gets -/

@[simp] theorem Report.set_self (report : Report) (field : Field) (value : Value) :
    report.set field value field = some value := Function.update_self ..

variable {field : Field}

theorem Report.set_of_ne (report : Report) {other : Field} (value : Value) (ne : other ≠ field) :
    report.set field value other = report other := Function.update_of_ne ne ..

/-- Bridge knows a field, or it is just going to be sent. -/
def Told (pw : PW) (field : Field) (value : Value) : Prop :=
  (pw.dataReport field = none ∧ pw.bridge field = some value) ∨
    (pw.dataReport field = some value ∧ pw.reportCache field = none)

theorem Told.congr {pw' : PW} {value : Value} (told : Told pw field value)
    (report : pw'.dataReport field = pw.dataReport field) (bridge : pw'.bridge = pw.bridge)
    (cache : pw'.reportCache = pw.reportCache) : Told pw' field value := by
  rw [Told, report, bridge, cache]
  exact told

theorem Told.sendReport {value : Value} (told : Told pw field value) (once : field ∈ PW.sentOnce) :
    pw.sendReport.bridge field = some value := by
  rw [PW.sendReport]
  split
  next =>
    simp only [PW.newReport, if_pos once, PW.checkNewField]
    rcases told with ⟨nothing, known⟩ | ⟨new, fresh⟩
    · simp [nothing, known]
    · simp [new, fresh]
  next none =>
    rcases told with ⟨-, known⟩ | ⟨new, fresh⟩
    · exact known
    · refine absurd ?_ none
      have news : PW.sentOnce.any pw.checkNewField = true :=
        List.any_eq_true.mpr ⟨field, once, by simp [PW.checkNewField, new, fresh]⟩
      simp [PW.hasNews, news]

/-- Sent fields that are not in the report are not remembered. -/
theorem reportCache_sendReport (missing : pw.dataReport field = none)
    (unsent : pw.reportCache field = none) : pw.sendReport.reportCache field = none := by
  rw [sendReport]
  split
  next =>
    simp only [keptReport, missing]
    exact ite_self _
  next => exact unsent

/-- Numbers are sent as soon as they are in the report. -/
theorem bridge_sendReport {value : Value}
    (number : field = .failedTs ∨ field = .solvedTs ∨ field = .failedSj ∨ field = .solvedSj)
    (new : pw.dataReport field = some value) (news : pw.hasNews = true) :
    pw.sendReport.bridge field = some value := by
  rw [sendReport, if_pos news]
  rcases number with rfl | rfl | rfl | rfl <;> simp [newReport, keptReport, sentOnce, forgotten, new]

/-- What is known of totals. -/
structure Reported (plan : Plan) (pw : PW) : Prop where
  sent : pw.totalTasksDetermined = true → Told pw .totalTs (.number plan.total)
  unsent : pw.totalTasksDetermined = false → pw.dataReport .totalTs = none ∧ pw.reportCache .totalTs = none
  subjobs : ∀ number, plan.subjobs = some number → Told pw .totalSj (.number number)

theorem Reported.start (plan : Plan) : Reported plan (start plan.subjobs) where
  sent := nofun
  unsent := by
    intro _
    cases plan.subjobs with
    | none => exact ⟨rfl, rfl⟩
    | some number => exact ⟨rfl, rfl⟩
  subjobs := by
    intro number is
    right
    rw [is]
    exact ⟨rfl, rfl⟩

/-- Steps that touch neither totals nor what is sent. -/
theorem Reported.congr {pw' : PW} (reported : Reported plan pw) (bridge : pw'.bridge = pw.bridge)
    (cache : pw'.reportCache = pw.reportCache) (determined : pw'.totalTasksDetermined = pw.totalTasksDetermined)
    (report : ∀ field, field = .totalTs ∨ field = .totalSj → pw'.dataReport field = pw.dataReport field) :
    Reported plan pw' := by
  have ts := report .totalTs (.inl rfl)
  have sj := report .totalSj (.inr rfl)
  refine ⟨fun is => ?_, fun is => ?_, fun number is => ?_⟩
  · exact (reported.sent (determined ▸ is)).congr ts bridge cache
  · rw [ts, cache]
    exact reported.unsent (determined ▸ is)
  · exact (reported.subjobs number is).congr sj bridge cache

theorem Reported.checkTotal (reported : Reported plan pw)
    (right : ∀ total, pw.totalNumber = some total → total = plan.total) :
    Reported plan pw.checkTotal := by
  rw [PW.checkTotal]
  split
  next total known =>
    split
    next => exact reported
    next first =>
      obtain rfl := right total known
      have unsent := reported.unsent (Bool.eq_false_iff.mpr first)
      refine ⟨fun _ => .inr ⟨pw.dataReport.set_self .totalTs _, unsent.2⟩, (fun is => by cases is), fun number is => ?_⟩
      have other : Field.totalSj ≠ .totalTs := by simp
      exact (reported.subjobs number is).congr (pw.dataReport.set_of_ne (.number plan.total) other) rfl rfl
  next => exact reported

theorem determined_checkTotal {total : Int} (known : pw.totalNumber = some total) :
    pw.checkTotal.totalTasksDetermined = true := by
  rw [checkTotal, known]
  dsimp only
  split
  next old => exact old
  next => rfl

theorem checkFirstTask_frame (pw : PW) (flag : Bool) (time : Nat) :
    ∃ report appeared start, pw.checkFirstTask flag time = { pw with
      dataReport := report, firstTaskAppeared := appeared, tasksStartTime := start } ∧
      ∀ field, field ≠ .tasksStarted → report field = pw.dataReport field := by
  rw [checkFirstTask]
  split
  next => exact ⟨_, _, _, rfl, fun field ne => Report.set_of_ne _ _ ne⟩
  next => exact ⟨_, _, _, rfl, fun _ _ => rfl⟩

/-- What is known of totals before endings are looked at. -/
theorem Reported.before (faithful : Faithful plan env) (timely : Timely plan env) (data : DataAt plan env n pw)
    (reported : Reported plan pw) : Reported plan (pw.begin (env n)).checkTotal := by
  have next := (data.drain faithful timely).checkFirstTask (env n).flag (env n).time
  refine Reported.checkTotal ?_ fun total known =>
    ((totalNumber_eq_some_iff next.1.drained.number next.1.drained.right).mp known).1
  obtain ⟨_, _, _, first, report⟩ := checkFirstTask_frame (pw.drain (env n)) (env n).flag (env n).time
  obtain ⟨_, _, totals⟩ := drainTotals_frame (pw.drainResults (env n).results (env n).time) (env n).totals
  obtain ⟨_, _, _, results, -⟩ := drainResults_frame pw (env n).results (env n).time
  rw [drain, totals, results] at report
  rw [begin, first, drain, totals, results]
  refine reported.congr rfl rfl rfl fun field is => report field ?_
  rcases is with rfl | rfl <;> exact nofun

theorem Reported.gather (faithful : Faithful plan env) (timely : Timely plan env) (data : DataAt plan env n pw)
    (reported : Reported plan pw) : Reported plan (pw.gather (env n)) := by
  have before := reported.before faithful timely data
  obtain ⟨_, _, _, _, _, is⟩ := gather_frame pw (env n)
  rw [is]
  exact before.congr rfl rfl rfl fun _ _ => rfl

/-- The total is determined if it is known before endings are looked at. -/
theorem determined_gather {seen : Seen} {total : Int} (known : (pw.drain seen).totalNumber = some total) :
    (pw.gather seen).totalTasksDetermined = true := by
  obtain ⟨_, _, _, first, -⟩ := checkFirstTask_frame (pw.drain seen) seen.flag seen.time
  obtain ⟨_, _, _, _, _, is⟩ := gather_frame pw seen
  rw [is]
  refine @determined_checkTotal _ total ?_
  rw [begin, first]
  exact known

/-- A job has no endings. -/
theorem determined_of_job (faithful : Faithful plan env) (job : plan.subjobs = none) {total : Int}
    (known : (pw.gather (env n)).totalNumber = some total) : (pw.gather (env n)).totalTasksDetermined = true := by
  refine @determined_gather _ _ total ?_
  have old (pw : PW) : ¬ (pw.unknown (env n).keys).length > 0 := by
    intro pos
    obtain ⟨⟨name, status⟩, mem⟩ := exists_mem_of_length_pos pos
    have found := (mem_unknown_iff.mp mem).1
    have later := faithful.items n _ _ (faithful.keys n _ _ found)
    have subjobs := (faithful.endings n _ _ later).1
    rw [job] at subjobs
    cases subjobs
  rw [gather_eq, checkSubjobs_of_old _ (old _)] at known
  obtain ⟨_, _, total⟩ := checkTotal_frame (pw.begin (env n))
  obtain ⟨_, _, _, first, -⟩ := checkFirstTask_frame (pw.drain (env n)) (env n).flag (env n).time
  rw [total, begin, first] at known
  exact known

/-- Time is estimated by the formula only after something is solved. -/
theorem estimateTime_isSome {startTime updateTime : Option Nat} {solved progress estimation : Int} {rest : Option Int}
    (known : solved ≠ 0 → startTime.isSome ∧ updateTime.isSome ∧ rest.isSome)
    (positive : 10 < progress → progress < 100 → solved ≠ 0) :
    ∃ value, estimateTime startTime updateTime solved rest progress estimation = some value := by
  by_cases formula : 10 < progress ∧ progress < 100
  · have solved' := positive formula.1 formula.2
    obtain ⟨start, update, rest'⟩ := known solved'
    have both : startTime.isSome ∧ updateTime.isSome ∧ rest.isSome ∧ solved ≠ 0 := ⟨start, update, rest', solved'⟩
    simp only [estimateTime, if_pos both, if_neg formula.1.not_ge, if_pos formula.2]
    split <;> exact ⟨_, rfl⟩
  · rw [estimateTime]
    by_cases less : progress ≤ 10
    · exact ⟨_, if_pos less⟩
    · rw [if_neg less, if_neg (by omega), if_neg (by omega)]
      exact ⟨_, rfl⟩

theorem setEstimation_of_ne (report : Report) {expectedTime gagText : Field} (value : Value)
    (ne : field ≠ expectedTime) (ne' : field ≠ gagText) :
    setEstimation report expectedTime gagText value field = report field := by
  cases value with
  | text text => exact report.set_of_ne _ ne'
  | number number => exact report.set_of_ne _ ne
  | flag => exact report.set_of_ne _ ne

/-- What the part on tasks adds to the report. -/
theorem reportTasks_spec (estimation : Int)
    (known : pw.solvedTasks ≠ 0 → pw.tasksStartTime.isSome ∧ pw.taskUpdateTime.isSome)
    (le : ∀ total, pw.totalNumber = some total → pw.solvedTasks + pw.failedTasks ≤ total)
    (nonneg : 0 ≤ pw.solvedTasks ∧ 0 ≤ pw.failedTasks) :
    ∃ report, pw.reportTasks estimation = some { pw with dataReport := report } ∧
      (∀ field, field = .totalTs ∨ field = .totalSj → report field = pw.dataReport field) ∧
      (pw.totalNumber.isSome → report .failedTs = some (.number pw.failedTasks) ∧
        report .solvedTs = some (.number pw.solvedTasks)) := by
  rw [reportTasks, tasksProgress]
  cases is : pw.totalNumber with
  | none => exact ⟨_, rfl, fun _ _ => rfl, nofun⟩
  | some total =>
    have rest : pw.solvedTasks ≠ 0 → pw.restTasks.isSome := by
      intro solved
      have := le total is
      have ne : total ≠ 0 := by omega
      simp [restTasks, is, ne]
    obtain ⟨value, estimated⟩ := @estimateTime_isSome pw.tasksStartTime pw.taskUpdateTime pw.solvedTasks
      (percent pw.solvedTasks pw.failedTasks total) estimation pw.restTasks
      (fun solved => ⟨(known solved).1, (known solved).2, rest solved⟩)
      (fun more less => solved_ne_zero_of_percent (by omega) less)
    simp only [map_some, estimated]
    refine ⟨_, rfl, fun field is => ?_, fun _ => ⟨?_, ?_⟩⟩
    · split
      all_goals rcases is with rfl | rfl <;> simp [setEstimation_of_ne, Report.set_of_ne]
    · split <;> simp [setEstimation_of_ne, Report.set_of_ne]
    · split <;> simp [setEstimation_of_ne, Report.set_of_ne]

/-- What the part on sub-jobs adds to the report. -/
theorem reportSubjobs_spec (estimation : Int) (known : pw.solvedSubjobs ≠ 0 → pw.subjobsUpdateTime.isSome) :
    ∃ report, pw.reportSubjobs estimation = some { pw with dataReport := report } ∧
      (∀ field, field = .totalTs ∨ field = .totalSj ∨ field = .failedTs ∨ field = .solvedTs →
        report field = pw.dataReport field) ∧
      (pw.jobMode = false → report .failedSj = some (.number pw.failedSubjobs) ∧
        report .solvedSj = some (.number pw.solvedSubjobs)) := by
  rw [reportSubjobs, subjobsProgress]
  by_cases job : pw.jobMode = true
  · rw [if_pos job]
    exact ⟨pw.dataReport, rfl, fun _ _ => rfl, fun no => by cases job.symm.trans no⟩
  · obtain ⟨value, estimated⟩ := @estimateTime_isSome (some 0) pw.subjobsUpdateTime pw.solvedSubjobs
      (percent pw.solvedSubjobs pw.failedSubjobs pw.subjobsNumber) estimation
      (some (pw.subjobsNumber - pw.solvedSubjobs - pw.failedSubjobs))
      (fun solved => ⟨rfl, known (by exact_mod_cast solved), rfl⟩)
      (fun more less => solved_ne_zero_of_percent (by omega) less)
    rw [if_neg job]
    simp only [estimated, map_some]
    refine ⟨_, rfl, fun field is => ?_, fun _ => ⟨?_, ?_⟩⟩
    · split
      all_goals rcases is with rfl | rfl | rfl | rfl <;> simp [setEstimation_of_ne, Report.set_of_ne]
    · split <;> simp [setEstimation_of_ne, Report.set_of_ne]
    · split <;> simp [setEstimation_of_ne, Report.set_of_ne]

/-- The invariant of the loop. -/
structure Loop (plan : Plan) (env : Nat → Seen) (n : Nat) (pw : PW) : Prop where
  data : DataAt plan env n pw
  reported : Reported plan pw

theorem Loop.start (plan : Plan) (env : Nat → Seen) : Loop plan env 0 (start plan.subjobs) :=
  ⟨Data.start plan, Reported.start plan⟩

theorem sendReport_frame (pw : PW) : ∃ bridge cache, pw.sendReport = { pw with bridge := bridge, reportCache := cache } := by
  rw [sendReport]
  split <;> exact ⟨_, _, rfl⟩

theorem Reported.send (reported : Reported plan pw) : Reported plan pw.sendReport.again := by
  have same : pw.sendReport.again.totalTasksDetermined = pw.totalTasksDetermined := by
    obtain ⟨_, _, is⟩ := sendReport_frame pw
    rw [is]
    rfl
  refine ⟨fun is => ?_, fun is => ?_, fun number is => ?_⟩
  · exact .inl ⟨rfl, (reported.sent (same ▸ is)).sendReport (by decide)⟩
  · obtain ⟨missing, unsent⟩ := reported.unsent (same ▸ is)
    exact ⟨rfl, reportCache_sendReport missing unsent⟩
  · exact .inl ⟨rfl, (reported.subjobs number is).sendReport (by decide)⟩

/-- Times are known as soon as something is solved. -/
theorem DataAt.times (timely : Timely plan env) (data : DataAt plan env (n + 1) pw)
    (starts : (env n).flag = true → pw.tasksStartTime.isSome) (solved : pw.solvedTasks ≠ 0) :
    pw.tasksStartTime.isSome ∧ pw.taskUpdateTime.isSome := by
  rw [data.tally.solved, Ne, Nat.cast_eq_zero, ← Ne, ← Nat.pos_iff_ne_zero, countP_pos_iff] at solved
  obtain ⟨message, mem, is⟩ := solved
  exact ⟨starts (timely.flag n ⟨message, mem, of_decide_eq_true is⟩), data.updated (ne_nil_of_mem mem)⟩

/-- A sub-job is either solved or failed. -/
theorem subjobs_total (pw : PW) : pw.solvedSubjobs + pw.failedSubjobs = pw.subjobsCache.keys.length := by
  have length : pw.subjobsCache.keys.length = pw.subjobsCache.values.length := by
    rw [Dict.keys, Dict.values, length_map, length_map]
  rw [solvedSubjobs, failedSubjobs, length, length_eq_countP_add_countP (· = .finished)]
  refine congrArg (_ + List.countP · _) ?_
  ext1 status
  cases status <;> rfl

theorem stops_iff : pw.stops = true ↔
    pw.jobMode = false ∧ pw.subjobsProgress = some 100 ∨ pw.jobMode = true ∧ pw.tasksProgress = some 100 := by
  rw [stops, Bool.or_eq_true, Bool.and_eq_true, Bool.and_eq_true, Bool.not_eq_true', decide_eq_true_eq,
    decide_eq_true_eq]

section Loops

variable (faithful : Faithful plan env)

include faithful

theorem DataAt.indexed (data : DataAt plan env (n + 1) pw) : Indexed Name.id plan.number pw.subjobsCache where
  index := fun _ => rfl
  named := by
    intro name status found
    rw [data.cache] at found
    obtain ⟨-, k, lt, is, -⟩ :=
      faithful.endings n name status (faithful.items n name status (faithful.keys n name status found))
    exact ⟨k, lt, is⟩

/-- Sub-jobs are done exactly when all endings are known. -/
theorem DataAt.subjobsProgress_iff (data : DataAt plan env (n + 1) pw)
    (subjobs : pw.jobMode = false) : pw.subjobsProgress = some 100 ↔
      ∀ k < plan.number, ((env n).keys.get? (.id k)).isSome := by
  have indexed := data.indexed faithful
  have le := indexed.length_le
  have total := subjobs_total pw
  have known (k : Nat) : (pw.subjobsCache.get? (.id k)).isSome ↔ ((env n).keys.get? (.id k)).isSome := by
    rw [data.cache]
    rfl
  have all := indexed.length_eq_iff
  simp only [known] at all
  rw [← all, subjobsProgress, if_neg (by simp [subjobs]), some.injEq, data.drained.number,
    percent_eq_hundred_iff (by omega) (by omega)]
  omega

/-- Tasks of a job are done exactly when all results have come. -/
theorem DataAt.tasksProgress_iff (timely : Timely plan env) (data : DataAt plan env n pw) :
    pw.tasksProgress = some 100 ↔ pw.totalNumber = some plan.total ∧ pw.solvedTasks + pw.failedTasks = plan.total := by
  have le := data.tasks_le faithful timely
  have nonneg : 0 ≤ pw.solvedTasks := by
    rw [data.tally.solved]
    omega
  rw [tasksProgress]
  cases known : pw.totalNumber with
  | none => exact iff_of_false nofun fun both => nomatch both.1
  | some total =>
    obtain rfl := ((totalNumber_eq_some_iff data.drained.number data.drained.right).mp known).1
    rw [map_some, some.injEq, percent_eq_hundred_iff nonneg le]
    exact (and_iff_right rfl).symm

/-- Messages that have come stay. -/
theorem Arrived.succ {k : Nat} (arrived : Arrived plan env n k) : Arrived plan env (n + 1) k := by
  constructor
  · refine le_antisymm (faithful.results (n + 1) k) ?_
    rw [resultsUntil_succ, countP_append, arrived.1]
    exact Nat.le_add_right ..
  · rw [totalsUntil_succ]
    exact mem_append_left _ arrived.2

variable (timely : Timely plan env) (loop : Loop plan env n pw)

include timely loop

/-- When the watcher stops, everything is done and the total has been determined. -/
theorem Loop.done (stops : (pw.gather (env n)).stops = true) :
    (pw.gather (env n)).solvedTasks + (pw.gather (env n)).failedTasks = plan.total ∧
      (pw.gather (env n)).totalNumber = some plan.total ∧ (pw.gather (env n)).totalTasksDetermined = true ∧
      ((pw.gather (env n)).jobMode = false →
        (pw.gather (env n)).solvedSubjobs + (pw.gather (env n)).failedSubjobs = plan.number) := by
  have next := (loop.data.gather faithful timely).1
  rcases stops_iff.mp stops with ⟨subjobs, progress⟩ | ⟨job, progress⟩
  · have all := (next.subjobsProgress_iff faithful subjobs).mp progress
    have arrived := timely.arrived (isNone_eq_false_iff.mp (next.mode.symm.trans subjobs)) n all
    have early : ∀ k < plan.number,
        if plan.normal k then (.identifier k, (plan.tasks k : Int)) ∈ totalsUntil env (n + 1)
        else (endingsBefore env n (.id k)).isSome := by
      intro k lt
      have come := arrived k lt
      split at come
      next normal =>
        rw [if_pos normal]
        exact come.2
      next fails =>
        rw [if_neg fails]
        obtain ⟨m, lt, seen⟩ := come
        exact faithful.endingsBefore_isSome lt seen
    have before := (loop.data.drain faithful timely).totalNumber_eq early
    refine ⟨next.tasks_eq faithful timely fun k lt normal => ?_, ?_, determined_gather before, fun _ => ?_⟩
    · have come := arrived k lt
      rwa [if_pos normal] at come
    · refine next.totalNumber_eq fun k lt => ?_
      have come := early k lt
      split at come
      next normal =>
        rw [if_pos normal]
        exact come
      next fails =>
        rw [if_neg fails]
        exact all k lt
    · rw [subjobs_total]
      refine (next.indexed faithful).length_eq_iff.mpr fun k lt => ?_
      rw [next.cache]
      exact all k lt
  · obtain ⟨known, sum⟩ := (next.tasksProgress_iff faithful timely).mp progress
    have none := isNone_iff_eq_none.mp (next.mode.symm.trans job)
    exact ⟨sum, known, determined_of_job faithful none known, fun no => by cases job.symm.trans no⟩

/-- An iteration raises no exception, and Bridge has got complete numbers if it is the last one. -/
theorem Loop.iterate :
    ∃ pw', pw.iterate (env n) = some pw' ∧ Loop plan env (n + 1) pw'.again ∧
      pw'.stops = (pw.gather (env n)).stops ∧ (pw'.stops = true → Complete pw') := by
  obtain ⟨next, starts⟩ := loop.data.gather faithful timely
  have reported := loop.reported.gather faithful timely loop.data
  have nonneg : 0 ≤ (pw.gather (env n)).solvedTasks ∧ 0 ≤ (pw.gather (env n)).failedTasks := by
    rw [next.tally.solved, next.tally.failed]
    omega
  obtain ⟨tasks, reportTasks, keepsTasks, setsTasks⟩ := reportTasks_spec (env n).estimationTs
    (next.times timely starts) (fun total known => by
      rw [((totalNumber_eq_some_iff next.drained.number next.drained.right).mp known).1]
      exact next.tasks_le faithful timely) nonneg
  obtain ⟨report, reportSubjobs, keepsSubjobs, setsSubjobs⟩ :=
    @reportSubjobs_spec { pw.gather (env n) with dataReport := tasks } (env n).estimationSj next.ended
  obtain ⟨pw₂, eq₂⟩ : ∃ pw₂, pw₂ = { pw.gather (env n) with dataReport := report } := ⟨_, rfl⟩
  have done : pw.iterate (env n) = some pw₂.sendReport := by
    rw [PW.iterate, reportTasks, bind_eq_bind, bind_some, reportSubjobs, eq₂]
    rfl
  have reported₂ : Reported plan pw₂ := by
    rw [eq₂]
    refine reported.congr rfl rfl rfl fun field is => ?_
    rw [← keepsTasks field is]
    exact keepsSubjobs field (is.imp_right .inl)
  obtain ⟨bridge, cache, sent⟩ := sendReport_frame pw₂
  have stops : pw₂.sendReport.stops = (pw.gather (env n)).stops := by
    rw [sent, eq₂]
    rfl
  refine ⟨pw₂.sendReport, done, ⟨?_, reported₂.send⟩, stops, fun last => ?_⟩
  · rw [sent, eq₂]
    exact next.others .empty bridge cache _ next.appeared
  · rw [stops] at last
    obtain ⟨sum, known, determined, subjobs⟩ := loop.done faithful timely last
    obtain ⟨failedTs, solvedTs⟩ := setsTasks (by rw [known]; rfl)
    have failedTs : pw₂.dataReport .failedTs = some (.number (pw.gather (env n)).failedTasks) := by
      rw [eq₂, ← failedTs]
      exact keepsSubjobs _ (.inr (.inr (.inl rfl)))
    have solvedTs : pw₂.dataReport .solvedTs = some (.number (pw.gather (env n)).solvedTasks) := by
      rw [eq₂, ← solvedTs]
      exact keepsSubjobs _ (.inr (.inr (.inr rfl)))
    have news : pw₂.hasNews = true := by
      simp [hasNews, keptReport, forgotten, solvedTs]
    have totalTs : pw₂.sendReport.bridge .totalTs = some (.number plan.total) :=
      (reported₂.sent (by rw [eq₂]; exact determined)).sendReport (by decide)
    refine ⟨⟨_, _, _, bridge_sendReport (by simp) solvedTs news, bridge_sendReport (by simp) failedTs news, totalTs, sum⟩,
      fun more => ?_⟩
    have more : (pw.gather (env n)).jobMode = false := by
      rwa [sent, eq₂] at more
    obtain ⟨failedSj, solvedSj⟩ := setsSubjobs more
    obtain ⟨number, is⟩ := isSome_iff_exists.mp (isNone_eq_false_iff.mp (next.mode.symm.trans more))
    have totalSj := (reported₂.subjobs number is).sendReport (by decide)
    have failedSj : pw₂.dataReport .failedSj = some (.number (pw.gather (env n)).failedSubjobs) := by
      rw [eq₂]
      exact failedSj
    have solvedSj : pw₂.dataReport .solvedSj = some (.number (pw.gather (env n)).solvedSubjobs) := by
      rw [eq₂]
      exact solvedSj
    refine ⟨_, _, _, bridge_sendReport (by simp) solvedSj news, bridge_sendReport (by simp) failedSj news, totalSj, ?_⟩
    have all := subjobs more
    rw [Plan.number, is] at all
    exact_mod_cast all

/-- The watcher stops at the latest when everything has come. -/
theorem Loop.stops_of_arrived (arrived : ∀ k < plan.number, plan.normal k → Arrived plan env n k)
    (ended : plan.subjobs.isSome → ∀ k < plan.number, (env n).keys.get? (.id k) = some (plan.ending k)) :
    (pw.gather (env n)).stops = true := by
  have next := (loop.data.gather faithful timely).1
  have mode := next.mode
  rw [stops_iff]
  cases is : plan.subjobs with
  | some number =>
    rw [is] at mode ended
    refine .inl ⟨mode, (next.subjobsProgress_iff faithful mode).mpr fun k lt => ?_⟩
    rw [ended rfl k lt]
    rfl
  | none =>
    have normal (k : Nat) : plan.normal k = true := by
      rw [Plan.normal, is]
      exact decide_eq_true (.inl rfl)
    have come (k : Nat) (lt : k < plan.number) := (arrived k lt (normal k)).succ faithful
    refine .inr ⟨by rw [mode, is]; rfl, (next.tasksProgress_iff faithful timely).mpr ⟨?_, ?_⟩⟩
    · refine next.totalNumber_eq fun k lt => ?_
      rw [if_pos (normal k)]
      exact (come k lt).2
    · exact next.tasks_eq faithful timely fun k lt _ => come k lt

/-- Iterations until the last one. -/
theorem Loop.watchProgress {last : Nat} (arrived : ∀ k < plan.number, plan.normal k → Arrived plan env last k)
    (ended : plan.subjobs.isSome → ∀ k < plan.number, (env last).keys.get? (.id k) = some (plan.ending k))
    (fuel : Nat) (le : n ≤ last) (enough : n + fuel = last + 1) :
    ∃ final, watchProgress env n pw fuel = .stopped final ∧ Complete final := by
  induction fuel generalizing n pw with
  | zero => omega
  | succ fuel ih =>
    obtain ⟨pw', iterate, next, stops, complete⟩ := loop.iterate faithful timely
    simp only [Progress.watchProgress, iterate]
    by_cases ends : pw'.stops = true
    · exact ⟨pw', if_pos ends, complete ends⟩
    · rw [if_neg ends]
      have before : n ≠ last := by
        rintro rfl
        rw [stops] at ends
        exact ends (loop.stops_of_arrived faithful timely arrived ended)
      exact ih next (by omega) (by omega)

end Loops

/-- If nothing is late, the watcher finishes and the last numbers that Bridge has got are complete. -/
theorem watchProgress_complete (faithful : Faithful plan env) (timely : Timely plan env) :
    ∃ fuel final, Progress.watchProgress env 0 (start plan.subjobs) fuel = .stopped final ∧ Complete final := by
  obtain ⟨last, arrived, ended⟩ := faithful.arrives
  exact ⟨last + 1, (Loop.start plan env).watchProgress faithful timely arrived ended (last + 1) (Nat.zero_le last)
    (Nat.zero_add _)⟩

/-! ## Two runs -/

/-- All messages are there at once; endings are there at once or a bit later. -/
def atOnce (results : List (Name × Status)) (totals : List (Name × Int)) (first rest : Dict Name Status) : Nat → Seen
  | 0 => ⟨results, totals, true, first, first, first, 0, 0, 0⟩
  | _ + 1 => ⟨[], [], true, rest, rest, rest, 0, 0, 0⟩

variable {first rest : Dict Name Status}

theorem resultsUntil_atOnce (n : Nat) : resultsUntil (atOnce results totals first rest) (n + 1) = results := by
  induction n with
  | zero => simp [resultsUntil, atOnce]
  | succ n ih =>
    rw [resultsUntil_succ, ih]
    exact append_nil _

theorem totalsUntil_atOnce (n : Nat) : totalsUntil (atOnce results totals first rest) (n + 1) = totals := by
  induction n with
  | zero => simp [totalsUntil, atOnce]
  | succ n ih =>
    rw [totalsUntil_succ, ih]
    exact append_nil _

theorem faithful_atOnce (owner : ∀ message ∈ results, ∃ k < plan.number, message.1 = .identifier k)
    (counts : ∀ k, results.countP (·.1 = .identifier k) ≤ plan.tasks k)
    (known : ∀ message ∈ totals, ∃ k < plan.number, message = (.identifier k, (plan.tasks k : Int)))
    (grows : ∀ name status, first.get? name = some status → rest.get? name = some status)
    (planned : ∀ name status, rest.get? name = some status →
      plan.subjobs.isSome ∧ ∃ k < plan.number, name = .id k ∧ status = plan.ending k)
    (all : ∀ k < plan.number, plan.normal k →
      results.countP (·.1 = .identifier k) = plan.tasks k ∧ (.identifier k, (plan.tasks k : Int)) ∈ totals)
    (ended : ∀ k < plan.number, rest.get? (.id k) = some (plan.ending k)) :
    Faithful plan (atOnce results totals first rest) where
  owner := by
    intro n message mem
    cases n with
    | zero => exact owner message mem
    | succ n => cases mem
  results := by
    intro n k
    cases n with
    | zero => exact Nat.zero_le _
    | succ n =>
      rw [resultsUntil_atOnce]
      exact counts k
  totals := by
    intro n message mem
    cases n with
    | zero => exact known message mem
    | succ n => cases mem
  keys := by
    intro n name status found
    cases n <;> exact found
  items := by
    intro n name status found
    cases n <;> exact found
  later := by
    intro n name status found
    cases n with
    | zero => exact grows name status found
    | succ n => exact found
  endings := by
    intro n name status found
    cases n with
    | zero => exact planned name status (grows name status found)
    | succ n => exact planned name status found
  arrives := by
    refine ⟨1, fun k lt normal => ?_, fun _ k lt => ended k lt⟩
    rw [Arrived, resultsUntil_atOnce, totalsUntil_atOnce]
    exact all k lt normal

/-- The only sub-job announces two tasks, one is solved, and the sub-job fails. -/
def failedSubjob : Plan := ⟨some 1, fun _ => 2, fun _ => .failed⟩

def failedSubjobSeen : Nat → Seen :=
  atOnce [(.identifier 0, .finished)] [(.identifier 0, 2)] (Dict.empty.set (.id 0) .failed) (Dict.empty.set (.id 0) .failed)

/-- Bridge gets the total number of tasks, and that is all: the failure is kept under another name. -/
theorem failedSubjob_incomplete : Faithful failedSubjob failedSubjobSeen ∧
    ¬ ∃ fuel final, watchProgress failedSubjobSeen 0 (start failedSubjob.subjobs) fuel = .stopped final ∧
      Complete final := by
  constructor
  · apply faithful_atOnce
    · exact forall_mem_singleton.mpr ⟨0, Nat.one_pos, rfl⟩
    · intro k
      exact (countP_le_length).trans (Nat.le_succ 1)
    · exact forall_mem_singleton.mpr ⟨0, Nat.one_pos, rfl⟩
    · exact fun _ _ found => found
    · intro name status found
      obtain ⟨is, rfl⟩ | ⟨-, found⟩ := Dict.of_get?_set found
      · exact ⟨rfl, 0, Nat.one_pos, is, rfl⟩
      · cases found
    · intro k _ normal
      cases normal
    · intro k lt
      obtain rfl := Nat.lt_one_iff.mp lt
      rfl
  · rintro ⟨fuel, final, stopped, complete⟩
    have run : ((start (some 1)).iterate (failedSubjobSeen 0)).map (fun pw => (pw.stops, pw.bridge .solvedTs)) =
        some (true, none) := by decide +kernel
    obtain ⟨pw, iterate, is⟩ := map_eq_some_iff.mp run
    obtain ⟨stops, nothing⟩ := Prod.mk.inj is
    cases fuel with
    | zero => cases stopped
    | succ fuel =>
      rw [watchProgress, show failedSubjob.subjobs = some 1 from rfl, iterate] at stopped
      simp only [if_pos stops, Outcome.stopped.injEq] at stopped
      obtain ⟨solved, -, -, sent, -⟩ := complete.tasks
      rw [← stopped, nothing] at sent
      cases sent

/-- One of two sub-jobs fails without messages. -/
def twoSubjobs : Plan := ⟨some 2, fun _ => 1, fun k => if k = 0 then .finished else .failed⟩

def twoSubjobsSeen : Nat → Seen :=
  atOnce [(.identifier 0, .finished)] [(.identifier 0, 1)] (Dict.empty.set (.id 1) .failed)
    ((Dict.empty.set (.id 1) .failed).set (.id 0) .finished)

theorem twoSubjobs_cases {k : Nat} (lt : k < twoSubjobs.number) : k = 0 ∨ k = 1 := by
  have two : k < 2 := lt
  omega

theorem twoSubjobs_faithful : Faithful twoSubjobs twoSubjobsSeen := by
  apply faithful_atOnce
  · exact forall_mem_singleton.mpr ⟨0, Nat.two_pos, rfl⟩
  · intro k
    exact countP_le_length
  · exact forall_mem_singleton.mpr ⟨0, Nat.two_pos, rfl⟩
  · intro name status found
    obtain ⟨is, rfl⟩ | ⟨-, found⟩ := Dict.of_get?_set found
    · rw [is]
      rfl
    · cases found
  · intro name status found
    obtain ⟨is, rfl⟩ | ⟨-, found⟩ := Dict.of_get?_set found
    · exact ⟨rfl, 0, Nat.two_pos, is, rfl⟩
    · obtain ⟨is, rfl⟩ | ⟨-, found⟩ := Dict.of_get?_set found
      · exact ⟨rfl, 1, Nat.one_lt_two, is, rfl⟩
      · cases found
  · intro k lt normal
    rcases twoSubjobs_cases lt with rfl | rfl
    · decide
    · cases normal
  · intro k lt
    rcases twoSubjobs_cases lt with rfl | rfl <;> rfl

theorem twoSubjobs_timely : Timely twoSubjobs twoSubjobsSeen where
  quiet := by
    intro n k lt fails
    obtain rfl : k = 1 := by
      rcases twoSubjobs_cases lt with rfl | rfl
      · exact absurd rfl fails
      · rfl
    cases n with
    | zero => exact ⟨rfl, not_mem_nil⟩
    | succ n =>
      rw [twoSubjobsSeen, resultsUntil_atOnce, totalsUntil_atOnce]
      decide
  arrived := by
    intro _ n all k lt
    cases n with
    | zero => cases all 0 Nat.two_pos
    | succ n =>
      rcases twoSubjobs_cases lt with rfl | rfl
      · rw [if_pos (show twoSubjobs.normal 0 = true from rfl), Arrived, twoSubjobsSeen, resultsUntil_atOnce,
          totalsUntil_atOnce]
        decide
      · exact ⟨0, Nat.succ_pos n, rfl⟩
  flag := by
    intro n _
    cases n <;> rfl

theorem twoSubjobs_complete : ∃ fuel final,
    watchProgress twoSubjobsSeen 0 (start twoSubjobs.subjobs) fuel = .stopped final ∧ Complete final :=
  watchProgress_complete twoSubjobs_faithful twoSubjobs_timely

end Klever.Core.Progress
