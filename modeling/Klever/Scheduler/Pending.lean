import Klever.Scheduler.Launch

/-!
# Messages about pending jobs and tasks

The part of `Scheduler.launch` in `klever/scheduler/schedulers/__init__.py` that takes the messages
with the status `PENDING`, with `add_new_pending_job`, `add_new_pending_task` and
`__add_missing_restrictions`. The configuration that Bridge answers is a dictionary of raw limits,
which are completed and converted by the functions of `klever/core/utils.py`.

`pending_handled` says what a sequence of messages does where all limits can be interpreted and no
message is about a task that is tracked with a final status: nothing is raised, what is tracked as
pending or processed stays, and anything else becomes tracked as pending in its own table or is
reported once. The other messages go wrong (`pending_mishandled`): the error of a job is overwritten,
the error of a task is written to the table of jobs, and a task with a final status is deleted from
the table of jobs.

What is left out: `check_resources`, of which only the outcome is given; the other keys of a
configuration; and the rounding of floating point numbers, which are taken exactly.
-/

namespace Klever.Scheduler

open Klever.Lib List Option

/-! ## Units -/

/-- A value of a limit as it is downloaded. Values that are neither numbers nor texts are given by the
way they are printed. -/
inductive Raw
  | null
  | number (value : ℚ)
  | text (s : String)
  | other (printed : String)
  deriving DecidableEq

/-- A value as `{!r}` prints it. -/
def Raw.printed : Raw → String
  | .null => "None"
  | .number value => toString value
  | .text s => quoted s
  | .other printed => printed

/-- The match of `([0-9.]+)([a-zA-Z]*)$`: the letters at the end, and the digits and dots before
them. The end may be followed by a line break. -/
def splitUnits (s : String) : Option (List Char × String) :=
  let chars := match s.toList.reverse with
    | '\n' :: rest => rest
    | chars => chars
  let digits := (chars.dropWhile Char.isAlpha).takeWhile fun c => c.isDigit || c == '.'
  if digits = [] then none
  else some (digits.reverse, String.ofList (chars.takeWhile Char.isAlpha).reverse)

/-- The value of digits. -/
def digitsValue (digits : List Char) : ℕ :=
  digits.foldl (fun value c => 10 * value + (c.toNat - '0'.toNat)) 0

/-- `float` on digits and dots: at most one dot and at least one digit. -/
def parseFloat (chars : List Char) : Option ℚ :=
  let whole := chars.takeWhile Char.isDigit
  match chars.dropWhile Char.isDigit with
  | [] => if whole = [] then none else some (digitsValue whole)
  | _ :: fraction =>
    if fraction.all Char.isDigit ∧ (whole ≠ [] ∨ fraction ≠ []) then
      some (digitsValue whole + digitsValue fraction / 10 ^ fraction.length)
    else none

/-- `int` on a number. -/
def truncate (q : ℚ) : ℤ := if 0 ≤ q then ⌊q⌋ else ⌈q⌉

/-- The base units of memory. -/
def unitsInBytes : List (String × ℕ) :=
  [("", 1), ("B", 1), ("KB", 10 ^ 3), ("MB", 10 ^ 6), ("GB", 10 ^ 9), ("TB", 10 ^ 12),
    ("KiB", 2 ^ 10), ("MiB", 2 ^ 20), ("GiB", 2 ^ 30), ("TiB", 2 ^ 40)]

/-- The base units of time. -/
def unitsInSeconds : List (String × ℕ) := [("", 1), ("s", 1), ("min", 60), ("h", 60 ^ 2)]

/-- `__converter` to base units. -/
def converter (table : List (String × ℕ)) (kind : String) : Raw → Except Exn ℤ
  | .text s =>
    match splitUnits s with
    | none =>
      .error (.valueError ("Cannot parse string to extract the value and units: " ++ quoted s))
    | some (digits, unit) =>
      match table.lookup unit with
      | none => .error (.valueError ("Get unknown " ++ kind ++ " unit " ++ quoted unit))
      | some factor =>
        match parseFloat digits with
        | none =>
          .error (.valueError ("could not convert string to float: " ++ quoted (String.ofList digits)))
        | some value => .ok (truncate (value * factor))
  | .number value => .ok (truncate value)
  | value => .error (.typeError ("float() argument must be a string or a real number, not " ++ value.printed))

/-- `memory_units_converter`. -/
def memoryUnitsConverter : Raw → Except Exn ℤ := converter unitsInBytes "memory"

/-- `time_units_converter`. -/
def timeUnitsConverter : Raw → Except Exn ℤ := converter unitsInSeconds "time"

/-! ## Limits -/

/-- A dictionary of limits. -/
abbrev Collection : Type := Dict String Raw

/-- The text about limits that are missing. -/
def limitsMissing : String :=
  "Resource limitations are missing: upload correct tasks.json file and properly " ++ "set job resource limitations"

/-- A tag that is missing or holds nothing becomes zero. -/
def fillTag (c : Collection) (tag : String) : Collection :=
  match c.get? tag with
  | none => c.set tag (.number 0)
  | some .null => c.set tag (.number 0)
  | some _ => c

/-- A tag that holds something is converted. -/
def convertTag (convert : Raw → Except Exn ℤ) (c : Collection) (tag : String) :
    Except Exn Unit × Collection :=
  match c.get? tag with
  | none => (.ok (), c)
  | some .null => (.ok (), c)
  | some value =>
    match convert value with
    | .ok n => (.ok (), c.set tag (.number n))
    | .error _ => (.error (.schedulerException
        ("Cannot interpret " ++ tag ++ " resource limitations: " ++ value.printed)), c)

/-- The loops of the conversion, over the tags of memory and over those of time. -/
def convertTags (c : Collection) : Except Exn Unit × Collection :=
  let memory := forEach (convertTag memoryUnitsConverter) c ["memory size", "disk memory size"]
  match memory.1 with
  | .error e => (.error e, memory.2)
  | .ok () => forEach (convertTag timeUnitsConverter) memory.2 ["wall time", "CPU time"]

/-- The tags without which a collection is not scheduled. -/
def requiredTags : List String := ["memory size", "number of CPU cores", "disk memory size"]

/-- Missing tags are filled. -/
def fillTags (c : Collection) : Collection :=
  let c := requiredTags.foldl fillTag c
  if c.get? "CPU model" = none then c.set "CPU model" .null else c

/-- `__add_missing_restrictions`, which changes the dictionary that it is given. -/
def addMissingRestrictions (c : Collection) : Except Exn Unit × Collection :=
  if c.keys = [] then (.error (.schedulerException limitsMissing), c)
  else convertTags (fillTags c)

/-! ## Messages -/

/-- A tracked job or task: its status, its error, and its collections of limits, which are two for a
job and one for a task. -/
structure Tracked where
  status : ItemStatus
  error : Option String
  limits : List Collection

/-- The tables of tracked jobs and tasks, and what was submitted to Bridge. -/
structure Tables where
  jobs : Dict String Tracked
  tasks : Dict String Tracked
  sent : List Report

/-- The limits in the configuration of a job, and those for its tasks, as far as they are there. -/
structure JobReply where
  limits : Option Collection
  tasks : Option Collection

/-- The limits in the description of a task. -/
structure TaskReply where
  limits : Option Collection

/-- A message with the status `PENDING`, and the answer if Bridge is asked for the configuration. -/
inductive Message
  | job (identifier : String) (reply : Option JobReply)
  | task (identifier : String) (reply : Option TaskReply)

/-- Limits that can be compared with the resources of a node. -/
structure Complete (c : Collection) : Prop where
  numbers : ∀ tag ∈ requiredTags, ∃ q, c.get? tag = some (.number q)
  model : c.get? "CPU model" ≠ none

/-- What `check_resources` answers. Given complete limits, it raises nothing but the exception that is
handled. -/
structure Intake where
  check : Kind → String → List Collection → Except Exn Unit
  handled : ∀ {kind identifier cs e}, (∀ c ∈ cs, Complete c) → check kind identifier cs = .error e →
    ∃ msg, e = .schedulerException msg

/-- The text with which a job is not prepared. -/
def jobNotPrepared (identifier msg : String) : String :=
  "Cannot prepare job " ++ quoted identifier ++ " for submission: " ++ quoted msg

/-- The loop of `add_new_pending_job` over the two collections, which stops at the first one that
cannot be completed. The entry that is written then is overwritten right after the loop. -/
def completeLimits (limits tasks : Collection) : List Collection :=
  let first := addMissingRestrictions limits
  match first.1 with
  | .ok () => [first.2, (addMissingRestrictions tasks).2]
  | .error _ => [first.2, tasks]

/-- `add_new_pending_job`. -/
def addNewPendingJob (I : Intake) (T : Tables) (identifier : String) (reply : Option JobReply) :
    Except Exn Unit × Tables :=
  match T.jobs.get? identifier with
  | some _ => (.ok (), T)
  | none =>
    match reply with
    | none => (.ok (), { T with
        sent := T.sent ++ [.jobError identifier "Failed to download configuration"] })
    | some conf =>
      match conf.tasks, conf.limits with
      | none, _ => (.ok (), { T with
          sent := T.sent ++ [.jobError identifier "Job has not tasks.json file with resource limits"] })
      | some _, none => (.error (.keyError "resource limits"), T)
      | some tasks, some limits =>
        let completed := completeLimits limits tasks
        let jobs := T.jobs.set identifier ⟨.pending, none, completed⟩
        match I.check .job identifier completed with
        | .ok () => (.ok (), { T with jobs := jobs })
        | .error (.schedulerException msg) => (.ok (), { T with
            jobs := jobs.erase identifier
            sent := T.sent ++ [.jobError identifier (jobNotPrepared identifier msg)] })
        | .error e => (.error e, { T with jobs := jobs })

/-- `add_new_pending_task`. The error of limits goes to the table of jobs. -/
def addNewPendingTask (I : Intake) (T : Tables) (identifier : String) (reply : Option TaskReply) :
    Except Exn Unit × Tables :=
  match T.tasks.get? identifier with
  | some _ => (.ok (), T)
  | none =>
    match reply with
    | none => (.ok (), { T with
        sent := T.sent ++ [.taskError identifier "Failed to download configuration"] })
    | some conf =>
      match conf.limits with
      | none => (.error (.keyError "resource limits"), { T with tasks := T.tasks.set identifier ⟨.pending, none, []⟩ })
      | some limits =>
        let completed := addMissingRestrictions limits
        let tasks := T.tasks.set identifier ⟨.pending, none, [completed.2]⟩
        match completed.1 with
        | .error (.schedulerException msg) => (.ok (), { T with
            jobs := T.jobs.set identifier ⟨.error, some msg, []⟩
            tasks := tasks })
        | .error e => (.error e, { T with tasks := tasks })
        | .ok () =>
          match I.check .task identifier [completed.2] with
          | .ok () => (.ok (), { T with tasks := tasks })
          | .error (.schedulerException msg) => (.ok (), { T with
              tasks := tasks.erase identifier
              sent := T.sent ++ [.taskError identifier (notPrepared identifier msg)] })
          | .error e => (.error e, { T with tasks := tasks })

/-- The statuses of what still waits or runs. -/
def ItemStatus.active (status : ItemStatus) : Bool := status = .pending ∨ status = .processing

/-- A message with the status `PENDING`. A job that is tracked with a final status is forgotten first;
for a task the table of jobs is taken. -/
def onPending (I : Intake) (T : Tables) : Message → Except Exn Unit × Tables
  | .job identifier reply =>
    match T.jobs.get? identifier with
    | some job =>
      if job.status.active then addNewPendingJob I T identifier reply
      else addNewPendingJob I { T with jobs := T.jobs.erase identifier } identifier reply
    | none => addNewPendingJob I T identifier reply
  | .task identifier reply =>
    match T.tasks.get? identifier with
    | some task =>
      if task.status.active then addNewPendingTask I T identifier reply
      else
        match T.jobs.get? identifier with
        | none => (.error (.keyError (quoted identifier)), T)
        | some _ => addNewPendingTask I { T with jobs := T.jobs.erase identifier } identifier reply
    | none => addNewPendingTask I T identifier reply

/-! ## Completed limits -/

variable {convert : Raw → Except Exn ℤ} {c : Collection} {tag : String}

/-- The number of CPU cores is not converted; it is a number if it is given at all. -/
def CoresNumber (c : Collection) : Prop :=
  ∀ value, c.get? "number of CPU cores" = some value → value = .null ∨ ∃ q, value = .number q

/-- Filling changes a tag only where it is missing or holds nothing, and to zero. -/
theorem fillTag_get? (t : String) : (fillTag c tag).get? t = if t = tag ∧ (c.get? t = none ∨ c.get? t = some .null) then
      some (.number 0) else c.get? t := by
  unfold fillTag
  split <;> by_cases same : t = tag
  all_goals simp_all [Dict.get?_set]

/-- A conversion changes only its own tag, to a number. -/
theorem convertTag_get? (t : String) : (convertTag convert c tag).2.get? t = c.get? t ∨
      t = tag ∧ ∃ q, (convertTag convert c tag).2.get? t = some (.number q) := by
  unfold convertTag
  split
  next => exact .inl rfl
  next => exact .inl rfl
  next value found _ =>
    split
    next n converted =>
      by_cases same : t = tag
      · exact .inr ⟨same, n, by rw [same, Dict.get?_set_self]⟩
      · exact .inl (Dict.get?_set_of_ne _ _ same)
    next => exact .inl rfl

/-- A tag that holds something is a number after its conversion. -/
theorem convertTag_ok {value : Raw} (found : c.get? tag = some value) (filled : value ≠ .null)
    (ok : (convertTag convert c tag).1 = .ok ()) :
    ∃ q, (convertTag convert c tag).2.get? tag = some (.number q) := by
  unfold convertTag at ok ⊢
  rw [found] at ok ⊢
  cases value with
  | null => exact absurd rfl filled
  | _ =>
    simp only at ok ⊢
    split at ok
    next n _ => exact ⟨n, Dict.get?_set_self ..⟩
    next => cases ok

/-- A conversion keeps limits complete. -/
theorem Complete.convertTag (h : Complete c) : Complete (convertTag convert c tag).2 := by
  constructor
  · intro t required
    rcases @convertTag_get? convert c tag t with same | ⟨-, number⟩
    · rw [same]
      exact h.numbers t required
    · exact number
  · rcases @convertTag_get? convert c tag "CPU model" with same | ⟨-, q, number⟩
    · rw [same]
      exact h.model
    · rw [number]
      nofun

/-- A tag that holds something. -/
def Filled (c : Collection) (t : String) : Prop := ∃ value, c.get? t = some value ∧ value ≠ .null

theorem filled_fillTag : Filled (fillTag c tag) tag := by
  unfold Filled
  rw [fillTag_get?]
  split
  next => exact ⟨_, rfl, fun is => by cases is⟩
  next given =>
    rw [not_and, not_or] at given
    obtain ⟨some_value, not_null⟩ := given rfl
    obtain ⟨value, found⟩ := ne_none_iff_exists'.mp some_value
    exact ⟨value, found, fun null => not_null (by rw [found, null])⟩

theorem Filled.fillTag {t : String} (h : Filled c t) : Filled (fillTag c tag) t := by
  obtain ⟨value, found, filled⟩ := h
  refine ⟨value, ?_, filled⟩
  rw [fillTag_get?, if_neg, found]
  rw [found]
  simp [filled]

/-- Filling leaves every required tag with something, the cores with a number, and a CPU model. -/
theorem fillTags_spec (cores : CoresNumber c) : (∀ t ∈ requiredTags, Filled (fillTags c) t) ∧
      (∃ q, (fillTags c).get? "number of CPU cores" = some (.number q)) ∧
      (fillTags c).get? "CPU model" ≠ none := by
  have tags : fillTags c = (fun c => if c.get? "CPU model" = none then c.set "CPU model" .null else c)
      (fillTag (fillTag (fillTag c "memory size") "number of CPU cores") "disk memory size") := rfl
  generalize three : fillTag (fillTag (fillTag c "memory size") "number of CPU cores")
    "disk memory size" = d at tags
  have others : ∀ t, t ≠ "CPU model" → (fillTags c).get? t = d.get? t := by
    intro t differs
    rw [tags]
    simp only
    split
    · exact Dict.get?_set_of_ne _ _ differs
    · rfl
  refine ⟨?_, ?_, ?_⟩
  · intro t required
    have filled : Filled d t := by
      rw [← three]
      simp only [requiredTags, mem_cons, not_mem_nil, or_false] at required
      rcases required with rfl | rfl | rfl
      · exact filled_fillTag.fillTag.fillTag
      · exact filled_fillTag.fillTag
      · exact filled_fillTag
    obtain ⟨value, found, filled⟩ := filled
    refine ⟨value, ?_, filled⟩
    rw [others t ?_, found]
    rintro rfl
    simp [requiredTags] at required
  · rw [others _ (by decide), ← three, fillTag_get?, if_neg (by simp), fillTag_get?, fillTag_get?]
    simp only [String.reduceEq, false_and, if_false, true_and]
    split
    next => exact ⟨0, rfl⟩
    next given =>
      rw [not_or] at given
      obtain ⟨value, found⟩ := ne_none_iff_exists'.mp given.1
      rcases cores value found with null | ⟨q, number⟩
      · exact absurd (by rw [found, null]) given.2
      · exact ⟨q, by rw [found, number]⟩
  · rw [tags]
    simp only
    split
    · rw [Dict.get?_set_self]
      exact some_ne_none _
    next given => exact given

theorem convertTag_other (s : Collection) (a other : String) (differs : other ≠ a) :
    (convertTag convert s a).2.get? other = s.get? other :=
  (convertTag_get? other).resolve_right fun same => differs same.1

/-- After the conversion of memory, filled limits are complete. -/
theorem convertMemory_complete (filled : ∀ t ∈ requiredTags, Filled c t)
    (cores : ∃ q, c.get? "number of CPU cores" = some (.number q))
    (model : c.get? "CPU model" ≠ none)
    (ok : (forEach (convertTag convert) c ["memory size", "disk memory size"]).1 = .ok ()) :
    Complete (forEach (convertTag convert) c ["memory size", "disk memory size"]).2 := by
  have outside : ∀ t, t ∉ ["memory size", "disk memory size"] →
      (forEach (convertTag convert) c ["memory size", "disk memory size"]).2.get? t = c.get? t :=
    fun t out => forEach_other (fun c t => Dict.get? c t) convertTag_other ok out
  obtain ⟨-, each⟩ := forEach_each (fun c t => Dict.get? c t) (I := fun _ => True) convertTag_other
    (fun _ _ _ => trivial) trivial (by decide) ok
  have converted : ∀ t ∈ ["memory size", "disk memory size"], Filled c t →
      ∃ q, (forEach (convertTag convert) c ["memory size", "disk memory size"]).2.get? t = some (.number q) := by
    intro t here ⟨value, found, not_null⟩
    obtain ⟨d, -, same, returned, after⟩ := each t here
    rw [after]
    exact convertTag_ok (same.trans found) not_null returned
  constructor
  · intro t required
    have given := filled t required
    simp only [requiredTags, mem_cons, not_mem_nil, or_false] at required
    rcases required with rfl | rfl | rfl
    · exact converted _ (by decide) given
    · rw [outside _ (by decide)]
      exact cores
    · exact converted _ (by decide) given
  · rw [outside _ (by decide)]
    exact model

/-- Limits that are completed without an exception can be compared. -/
theorem addMissingRestrictions_complete (cores : CoresNumber c)
    (ok : (addMissingRestrictions c).1 = .ok ()) : Complete (addMissingRestrictions c).2 := by
  unfold addMissingRestrictions convertTags at ok ⊢
  split at ok
  next => cases ok
  next present =>
    rw [if_neg present]
    simp only at ok ⊢
    split at ok
    next => cases ok
    next returned =>
      obtain ⟨filled, number, model⟩ := fillTags_spec cores
      have complete := convertMemory_complete filled number model returned
      exact (forEach_each (fun c t => Dict.get? c t) convertTag_other
        (fun _ _ h => Complete.convertTag h) complete (by decide) ok).1

/-! ## What a message does -/

/-- What a message is about. -/
def Message.subject : Message → Kind × String
  | .job identifier _ => (.job, identifier)
  | .task identifier _ => (.task, identifier)

/-- What is tracked about a job or task. -/
def Tables.entry (T : Tables) : Kind × String → Option Tracked
  | (.job, identifier) => T.jobs.get? identifier
  | (.task, identifier) => T.tasks.get? identifier

/-- Limits that are given and can be interpreted. -/
def Interpretable (limits : Option Collection) : Prop :=
  ∃ c, limits = some c ∧ (addMissingRestrictions c).1 = .ok () ∧ CoresNumber c

/-- The limits in a downloaded configuration can be interpreted. A job without limits for its tasks is
refused before they are looked at. -/
def Message.Sound : Message → Prop
  | .job _ reply => ∀ conf, reply = some conf → conf.tasks ≠ none → Interpretable conf.limits ∧ Interpretable conf.tasks
  | .task _ reply => ∀ conf, reply = some conf → Interpretable conf.limits

/-- The completed limits of a configuration that was downloaded. -/
def Message.completed : Message → Option (List Collection)
  | .job _ (some ⟨some limits, some tasks⟩) =>
    some [(addMissingRestrictions limits).2, (addMissingRestrictions tasks).2]
  | .task _ (some ⟨some limits⟩) => some [(addMissingRestrictions limits).2]
  | _ => none

/-- The configuration was downloaded, and the runner accepts it. -/
def Message.Accepted (I : Intake) (m : Message) : Prop :=
  ∃ cs, m.completed = some cs ∧ I.check m.subject.1 m.subject.2 cs = .ok ()

/-- An error about a job or task. -/
def errorReport : Kind × String → String → Report
  | (.job, identifier), msg => .jobError identifier msg
  | (.task, identifier), msg => .taskError identifier msg

/-- Something is tracked as pending or processed. -/
def Tables.Active (T : Tables) (subject : Kind × String) : Prop :=
  ∃ e, T.entry subject = some e ∧ e.status.active = true

/-- What a message should do. What is tracked as pending or processed stays as it is. Anything else is
tracked as pending with its completed limits, if it is accepted, and otherwise one error about it is
submitted and it is not tracked. Nothing else changes. -/
structure Handled (I : Intake) (T : Tables) (m : Message) (T' : Tables) : Prop where
  others : ∀ subject, subject ≠ m.subject → T'.entry subject = T.entry subject
  active : T.Active m.subject → T' = T
  accepted : ¬ T.Active m.subject → m.Accepted I → T'.sent = T.sent ∧
    ∃ cs, m.completed = some cs ∧ (∀ c ∈ cs, Complete c) ∧ T'.entry m.subject = some ⟨.pending, none, cs⟩
  refused : ¬ T.Active m.subject → ¬ m.Accepted I → T'.entry m.subject = none ∧
    ∃ msg, T'.sent = T.sent ++ [errorReport m.subject msg]

variable {I : Intake} {T : Tables} {m : Message} {T' : Tables} {id : String}

/-- Something that is not tracked and not accepted is handled by one report. -/
theorem handled_of_report {msg : String} (fresh : T.entry m.subject = none) (refused : ¬ m.Accepted I)
    (same : ∀ subject, T'.entry subject = T.entry subject) (sent : T'.sent = T.sent ++ [errorReport m.subject msg]) :
    Handled I T m T' := by
  refine ⟨fun subject _ => same subject, ?_, ?_, ?_⟩
  · intro ⟨e, found, _⟩
    rw [fresh] at found
    cases found
  · intro _ accepted
    exact absurd accepted refused
  · intro _ _
    exact ⟨(same m.subject).trans fresh, msg, sent⟩

/-- Something that is not tracked and accepted is handled by tracking it. -/
theorem handled_of_track {cs : List Collection} (fresh : T.entry m.subject = none) (completed : m.completed = some cs)
    (complete : ∀ c ∈ cs, Complete c) (accepted : m.Accepted I) (sent : T'.sent = T.sent)
    (others : ∀ subject, subject ≠ m.subject → T'.entry subject = T.entry subject)
    (tracked : T'.entry m.subject = some ⟨.pending, none, cs⟩) : Handled I T m T' := by
  refine ⟨others, ?_, ?_, ?_⟩
  · intro ⟨e, found, _⟩
    rw [fresh] at found
    cases found
  · intro _ _
    exact ⟨sent, cs, completed, complete, tracked⟩
  · intro _ refused
    exact absurd accepted refused

/-- Setting a key and deleting it again leaves a table as it was, if the key was not there. -/
theorem get?_erase_set {d : Dict String Tracked} {e : Tracked} (fresh : d.get? id = none) (i : String) :
    ((d.set id e).erase id).get? i = d.get? i := by
  rw [Dict.get?_erase]
  split
  next same => rw [same, fresh]
  next differs => exact Dict.get?_set_of_ne _ _ differs

/-- A new job. -/
theorem addNewPendingJob_spec {reply : Option JobReply}
    (sound : (Message.job id reply).Sound) (fresh : T.jobs.get? id = none) :
    (addNewPendingJob I T id reply).1 = .ok () ∧ Handled I T (.job id reply) (addNewPendingJob I T id reply).2 := by
  unfold addNewPendingJob
  rw [fresh]
  rcases reply with _ | ⟨limits, tasks⟩
  · exact ⟨rfl, handled_of_report fresh (fun ⟨_, given, _⟩ => nomatch given) (fun _ => rfl) rfl⟩
  cases tasks with
  | none =>
    have no_limits : (Message.job id (some ⟨limits, none⟩)).completed = none := by
      cases limits <;> rfl
    refine ⟨rfl, handled_of_report fresh ?_ (fun _ => rfl) rfl⟩
    intro ⟨_, given, _⟩
    rw [no_limits] at given
    cases given
  | some tasks =>
    obtain ⟨⟨l, rfl, first, cores⟩, ⟨t, same, second, task_cores⟩⟩ := sound _ rfl nofun
    cases same
    have completed : completeLimits l tasks = [(addMissingRestrictions l).2, (addMissingRestrictions tasks).2] := by
      simp only [completeLimits, first]
    have complete : ∀ c ∈ completeLimits l tasks, Complete c := by
      rw [completed, forall_mem_cons, forall_mem_singleton]
      exact ⟨addMissingRestrictions_complete cores first, addMissingRestrictions_complete task_cores second⟩
    simp only
    rcases checked : I.check .job id (completeLimits l tasks) with e | ⟨⟩
    · obtain ⟨msg, rfl⟩ := I.handled complete checked
      refine ⟨rfl, handled_of_report fresh ?_ ?_ rfl⟩
      · intro ⟨cs, given, accepted⟩
        cases given
        rw [completed] at checked
        exact absurd (checked.symm.trans accepted) nofun
      · intro ⟨kind, i⟩
        cases kind with
        | job => exact get?_erase_set fresh i
        | task => rfl
    · refine ⟨rfl, handled_of_track fresh (congrArg some completed.symm) complete
        ⟨_, congrArg some completed.symm, checked⟩ rfl ?_ (Dict.get?_set_self ..)⟩
      intro ⟨kind, i⟩ differs
      cases kind with
      | job => exact Dict.get?_set_of_ne _ _ fun same => differs (by rw [same]; rfl)
      | task => rfl

/-- A new task. -/
theorem addNewPendingTask_spec {reply : Option TaskReply} (sound : (Message.task id reply).Sound)
    (fresh : T.tasks.get? id = none) :
    (addNewPendingTask I T id reply).1 = .ok () ∧ Handled I T (.task id reply) (addNewPendingTask I T id reply).2 := by
  unfold addNewPendingTask
  rw [fresh]
  rcases reply with _ | conf
  · exact ⟨rfl, handled_of_report fresh (fun ⟨_, given, _⟩ => nomatch given) (fun _ => rfl) rfl⟩
  obtain ⟨l, given, ok, cores⟩ := sound conf rfl
  obtain ⟨limits⟩ := conf
  cases given
  have complete : ∀ c ∈ [(addMissingRestrictions l).2], Complete c :=
    forall_mem_singleton.mpr (addMissingRestrictions_complete cores ok)
  simp only [ok]
  rcases checked : I.check .task id [(addMissingRestrictions l).2] with e | ⟨⟩
  · obtain ⟨msg, rfl⟩ := I.handled complete checked
    refine ⟨rfl, handled_of_report fresh ?_ ?_ rfl⟩
    · intro ⟨cs, given, accepted⟩
      cases given
      exact absurd (checked.symm.trans accepted) nofun
    · intro ⟨kind, i⟩
      cases kind with
      | job => rfl
      | task => exact get?_erase_set fresh i
  · refine ⟨rfl, handled_of_track fresh rfl complete ⟨_, rfl, checked⟩ rfl ?_ (Dict.get?_set_self ..)⟩
    intro ⟨kind, i⟩ differs
    cases kind with
    | job => rfl
    | task => exact Dict.get?_set_of_ne _ _ fun same => differs (by rw [same]; rfl)

/-- What is tracked as pending or processed stays. -/
theorem handled_of_active (active : T.Active m.subject) : Handled I T m T :=
  ⟨fun _ _ => rfl, fun _ => rfl, fun idle => absurd active idle, fun idle => absurd active idle⟩

/-- A job with a final status is handled like one that is not tracked. -/
theorem Handled.of_forgotten {reply : Option JobReply} {job : Tracked}
    (h : Handled I { T with jobs := T.jobs.erase id } (.job id reply) T')
    (found : T.jobs.get? id = some job) (final : ¬ job.status.active = true) :
    Handled I T (.job id reply) T' := by
  have idle : ¬ T.Active (.job, id) := by
    intro ⟨e, tracked, active⟩
    cases found.symm.trans tracked
    exact final active
  have forgotten : ¬ Tables.Active { T with jobs := T.jobs.erase id } (.job, id) := by
    intro ⟨e, tracked, _⟩
    rw [Tables.entry, Dict.get?_erase_self] at tracked
    cases tracked
  refine ⟨?_, fun active => absurd active idle, fun _ => h.accepted forgotten, fun _ => h.refused forgotten⟩
  intro ⟨kind, i⟩ differs
  rw [h.others _ differs]
  cases kind with
  | job =>
    show (T.jobs.erase id).get? i = T.jobs.get? i
    rw [Dict.get?_erase, if_neg fun same => differs (by rw [same]; rfl)]
  | task => rfl

/-- A message does not leave a final status behind. -/
theorem Handled.active_of (h : Handled I T m T') (subject : Kind × String)
    (before : ∀ e, T.entry subject = some e → e.status.active = true) :
    ∀ e, T'.entry subject = some e → e.status.active = true := by
  intro e tracked
  by_cases same : subject = m.subject
  · subst same
    by_cases active : T.Active m.subject
    · rw [h.active active] at tracked
      exact before e tracked
    · by_cases accepted : m.Accepted I
      · obtain ⟨-, cs, -, -, pending⟩ := h.accepted active accepted
        cases pending.symm.trans tracked
        rfl
      · rw [(h.refused active accepted).1] at tracked
        cases tracked
  · rw [h.others subject same] at tracked
    exact before e tracked

/-- A message whose limits can be interpreted is handled, unless it is about a task that is tracked
with a final status. -/
theorem onPending_handled (sound : m.Sound)
    (known : ∀ id e, m.subject = (.task, id) → T.tasks.get? id = some e → e.status.active = true) :
    (onPending I T m).1 = .ok () ∧ Handled I T m (onPending I T m).2 := by
  cases m with
  | job id reply =>
    simp only [onPending]
    cases found : T.jobs.get? id with
    | none => exact addNewPendingJob_spec sound found
    | some job =>
      by_cases active : job.status.active = true
      · simp only [active, if_true, addNewPendingJob, found, true_and]
        exact handled_of_active ⟨job, found, active⟩
      · simp only [if_neg active]
        obtain ⟨ok, handled⟩ := @addNewPendingJob_spec I { T with jobs := T.jobs.erase id }
          id reply sound (Dict.get?_erase_self ..)
        exact ⟨ok, handled.of_forgotten found active⟩
  | task id reply =>
    simp only [onPending]
    cases found : T.tasks.get? id with
    | none => exact addNewPendingTask_spec sound found
    | some task =>
      have active := known id task rfl found
      simp only [active, if_true, addNewPendingTask, found, true_and]
      exact handled_of_active ⟨task, found, active⟩

/-- Let all downloaded limits be interpretable, and let no message be about a task that is tracked with
a final status. Then a sequence of messages raises nothing, each message is handled in the state that
it finds, and what no message is about stays as it was. -/
theorem pending_handled (I : Intake) (T : Tables) (messages : List Message) (sound : ∀ m ∈ messages, m.Sound)
    (known : ∀ m ∈ messages, ∀ identifier e, m.subject = (.task, identifier) →
      T.tasks.get? identifier = some e → e.status.active = true) :
    (forEach (onPending I) T messages).1 = .ok () ∧
      Along (onPending I) (fun T m => Handled I T m (onPending I T m).2) T messages ∧
      ∀ subject, (∀ m ∈ messages, subject ≠ m.subject) →
        (forEach (onPending I) T messages).2.entry subject = T.entry subject := by
  induction messages generalizing T with
  | nil => exact ⟨rfl, trivial, fun _ _ => rfl⟩
  | cons m messages ih =>
    rw [forall_mem_cons] at sound known
    obtain ⟨ok, handled⟩ := onPending_handled (I := I) sound.1 known.1
    have later := ih (onPending I T m).2 sound.2 ?_
    · rw [forEach_cons_of_ok ok]
      refine ⟨later.1, ⟨handled, later.2.1⟩, fun subject apart => ?_⟩
      rw [forall_mem_cons] at apart
      rw [later.2.2 subject apart.2, handled.others subject apart.1]
    · intro m' mem identifier e about
      exact handled.active_of (.task, identifier) (fun e => known.2 m' mem identifier e about) e

/-- A runner that accepts everything. -/
def openIntake : Intake := ⟨fun _ _ _ => .ok (), fun _ raised => nomatch raised⟩

/-- Limits with a memory size that is not one, and limits with one core. -/
def badLimits : Collection := Dict.empty.set "memory size" (.text "many")

@[inherit_doc badLimits]
def oneCore : Collection := Dict.empty.set "number of CPU cores" (.number 1)

theorem oneCore_interpretable : Interpretable (some oneCore) := by
  refine ⟨oneCore, rfl, rfl, ?_⟩
  intro value found
  cases found
  exact .inr ⟨1, rfl⟩

/-- A job and a task with sound limits are handled, one after the other. -/
theorem pending_handled_two :
    Along (onPending openIntake) (fun T m => Handled openIntake T m (onPending openIntake T m).2)
      ⟨.empty, .empty, []⟩
      [.job "job" (some ⟨some oneCore, some oneCore⟩), .task "task" (some ⟨some oneCore⟩)] := by
  refine (pending_handled openIntake ⟨.empty, .empty, []⟩ _ ?_ ?_).2.1
  · rw [forall_mem_cons, forall_mem_singleton]
    constructor
    · intro conf same _
      cases same
      exact ⟨oneCore_interpretable, oneCore_interpretable⟩
    · intro conf same
      cases same
      exact oneCore_interpretable
  · intro m _ identifier e _ tracked
    cases tracked

/-- The other messages: limits of a task that cannot be interpreted leave it pending and an error in
the table of jobs, and limits of a job that are empty leave it pending, both without a report; a task
with a final status raises. And a job that is processed stays so. -/
theorem pending_mishandled :
    (∃ task, (onPending openIntake ⟨.empty, .empty, []⟩ (.task "task" (some ⟨some badLimits⟩))) =
      (.ok (), ⟨Dict.empty.set "task" ⟨.error, some "Cannot interpret memory size resource limitations: 'many'", []⟩,
        Dict.empty.set "task" task, []⟩) ∧ task.status = .pending) ∧
    (∃ job, (onPending openIntake ⟨.empty, .empty, []⟩ (.job "job" (some ⟨some .empty, some oneCore⟩))) =
      (.ok (), ⟨Dict.empty.set "job" job, .empty, []⟩) ∧ job.status = .pending) ∧
    (onPending openIntake ⟨.empty, Dict.empty.set "task" ⟨.error, none, []⟩, []⟩
      (.task "task" (some ⟨some oneCore⟩))).1 = .error (.keyError "'task'") ∧
    (onPending openIntake ⟨Dict.empty.set "job" ⟨.processing, none, []⟩, .empty, []⟩
      (.job "job" (some ⟨some oneCore, some oneCore⟩))).2.jobs.get? "job" =
        some ⟨.processing, none, []⟩ := by
  exact ⟨⟨_, rfl, rfl⟩, ⟨_, rfl, rfl⟩, rfl, rfl⟩

end Klever.Scheduler
