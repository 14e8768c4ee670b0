import Klever.Lib.Dict

/-!
# Access to jobs

Who may see a job is written down twice. `JobAccess` looks at one job: the role of a user in the job is a custom one, if
there is any, and the global role of the job otherwise. The lists of jobs and decisions are filtered by database
queries, where a custom role can grant access but does not replace the global role. So a custom role that denies access
hides a job that everybody else can see, but does not remove it from lists.
-/

namespace Klever.Bridge.Access

open Klever.Lib List Option

/-- `USER_ROLES` -/
inductive UserRoles where
  | noAccess | producer | manager | expert | serviceUser
  deriving DecidableEq, Repr

/-- `JOB_ROLES` -/
inductive JobRoles where
  | noAccess | observer | expert | observerAndOperator | expertAndOperator
  deriving DecidableEq, Repr

/-- `DECISION_STATUS` -/
inductive DecisionStatus where
  | hidden | pending | isSolving | solved | failed | corrupted | cancelling | cancelled | terminated
  deriving DecidableEq, Repr

structure User where
  id : Nat
  role : UserRoles

def User.isManager (user : User) : Bool := user.role = .manager

def User.isExpert (user : User) : Bool := user.role = .expert

/-- A job; its author may have been deleted. -/
structure Job where
  author : Option Nat
  globalRole : JobRoles

structure Decision where
  job : Nat
  status : DecisionStatus

/-- A custom role. There may be several for one user and one job, the first of them is taken. -/
structure UserRole where
  job : Nat
  user : Nat
  role : JobRoles

/-- The tables; decisions belong to jobs. -/
structure Database where
  jobs : Dict Nat Job
  decisions : Dict Nat Decision
  userRoles : List UserRole
  job_of : ∀ id decision, decisions.get? id = some decision → (jobs.get? decision.job).isSome

/-! ## Lists -/

/-- The jobs for which a user has a custom role with access. -/
def customAccessIds (userRoles : List UserRole) (user : User) : List Nat :=
  (userRoles.filter fun row => row.user = user.id ∧ row.role ≠ .noAccess).map (·.job)

/-- The filter of both lists. -/
def listed (userRoles : List UserRole) (user : User) (id : Nat) (job : Job) : Bool :=
  job.author = some user.id ∨ job.globalRole ≠ .noAccess ∨ id ∈ customAccessIds userRoles user

/-- `jobs_with_view_access`, for all jobs -/
def jobsWithViewAccess (db : Database) (user : User) : List Nat :=
  if user.isManager || user.isExpert then db.jobs.keys
  else (db.jobs.items.filter fun (id, job) => listed db.userRoles user id job).map Prod.fst

/-- `decisions_with_view_access`, for all decisions -/
def decisionsWithViewAccess (db : Database) (user : User) : List Nat :=
  let queryset := db.decisions.items.filter fun (_, decision) => decision.status ≠ .hidden
  if user.isManager || user.isExpert then queryset.map Prod.fst
  else (queryset.filter fun (_, decision) =>
    (db.jobs.get? decision.job).any fun job => listed db.userRoles user decision.job job).map Prod.fst

/-! ## Single objects -/

namespace JobAccess

/-- `_job_role` -/
def jobRole (userRoles : List UserRole) (user : User) (id : Nat) (job : Job) : JobRoles :=
  match userRoles.find? fun row => row.job = id ∧ row.user = user.id with
  | some row => row.role
  | none => job.globalRole

/-- `can_view` -/
def canView (userRoles : List UserRole) (user : User) (id : Nat) (job : Job) : Bool :=
  user.isManager || user.isExpert || job.author = some user.id || jobRole userRoles user id job ≠ .noAccess

end JobAccess

/-- `DecisionAccess.can_view` -/
def DecisionAccess.canView (userRoles : List UserRole) (user : User) (decision : Decision) (job : Job) : Bool :=
  JobAccess.canView userRoles user decision.job job && decision.status ≠ .hidden

/-! ## Both agree unless a custom role denies access -/

/-- A custom role does not take the access away: the user has access anyway, or the first custom role gives access, or
nothing does. -/
def Agreed (userRoles : List UserRole) (user : User) (id : Nat) (job : Job) : Prop :=
  user.isManager = true ∨ user.isExpert = true ∨ job.author = some user.id ∨
    ∀ row, userRoles.find? (fun row => row.job = id ∧ row.user = user.id) = some row → row.role = .noAccess →
      job.globalRole = .noAccess ∧ ∀ other ∈ userRoles, other.job = id → other.user = user.id → other.role = .noAccess

variable {user : User} {id : Nat} {job : Job} {db : Database}

theorem mem_customAccessIds {userRoles : List UserRole} : id ∈ customAccessIds userRoles user ↔
      ∃ row ∈ userRoles, row.job = id ∧ row.user = user.id ∧ row.role ≠ .noAccess := by
  simp only [customAccessIds, List.mem_map, mem_filter, decide_eq_true_eq]
  constructor
  · rintro ⟨row, ⟨mem, own, role⟩, here⟩
    exact ⟨row, mem, here, own, role⟩
  · rintro ⟨row, mem, here, own, role⟩
    exact ⟨row, ⟨mem, own, role⟩, here⟩

/-- What is listed for users without a special role is what they can view, exactly if the roles agree. -/
theorem listed_eq_canView_iff {userRoles : List UserRole} (manager : user.isManager = false)
    (expert : user.isExpert = false) :
    (listed userRoles user id job = true ↔ JobAccess.canView userRoles user id job = true) ↔
      Agreed userRoles user id job := by
  by_cases author : job.author = some user.id
  · simp [listed, JobAccess.canView, Agreed, author]
  simp only [listed, JobAccess.canView, Agreed, manager, expert, author, false_or, Bool.false_or, decide_false,
    decide_eq_true_eq, Bool.false_eq_true, mem_customAccessIds]
  rcases first : userRoles.find? (fun row => row.job = id ∧ row.user = user.id) with _ | row
  · -- there is no custom role
    have none := find?_eq_none.mp first
    have role : JobAccess.jobRole userRoles user id job = job.globalRole := by simp only [JobAccess.jobRole, first]
    rw [role]
    refine iff_of_true ⟨?_, .inl⟩ fun _ is => by cases first.symm.trans is
    rintro (role | ⟨row, mem, here, own, -⟩)
    · exact role
    · exact absurd (decide_eq_true ⟨here, own⟩) (none row mem)
  · have mem := mem_of_find?_eq_some first
    have own := find?_some first
    have role : JobAccess.jobRole userRoles user id job = row.role := by simp only [JobAccess.jobRole, first]
    rw [decide_eq_true_eq] at own
    rw [role]
    by_cases denied : row.role = .noAccess
    · simp only [first, denied, ne_eq, not_true_eq_false, iff_false, not_or, not_not, not_exists, not_and, some.injEq,
        forall_eq', forall_const]
    · refine iff_of_true (iff_of_true (.inr ⟨row, mem, own.1, own.2, denied⟩) denied) fun row' is denied' => ?_
      cases first.symm.trans is
      exact absurd denied' denied

theorem mem_jobsWithViewAccess (found : db.jobs.get? id = some job) : id ∈ jobsWithViewAccess db user ↔
      user.isManager = true ∨ user.isExpert = true ∨ listed db.userRoles user id job = true := by
  rw [jobsWithViewAccess]
  cases manager : user.isManager
  · cases expert : user.isExpert
    · simp only [Bool.or_false, Bool.false_eq_true, if_false, false_or, List.mem_map, mem_filter, Prod.exists,
        exists_and_right, exists_eq_right, Dict.mem_items_iff, found, some.injEq, exists_eq_left']
    · exact iff_of_true (Dict.mem_keys_iff.mpr ⟨job, found⟩) (.inr (.inl rfl))
  · exact iff_of_true (Dict.mem_keys_iff.mpr ⟨job, found⟩) (.inl rfl)

theorem mem_decisionsWithViewAccess {decision : Decision} (found : db.decisions.get? id = some decision)
    (of : db.jobs.get? decision.job = some job) :
    id ∈ decisionsWithViewAccess db user ↔ decision.status ≠ .hidden ∧
      (user.isManager = true ∨ user.isExpert = true ∨ listed db.userRoles user decision.job job = true) := by
  rw [decisionsWithViewAccess]
  cases manager : user.isManager
  · cases expert : user.isExpert
    · simp [Dict.mem_items_iff, found, of, and_comm]
    · simp [Dict.mem_items_iff, found]
  · simp [Dict.mem_items_iff, found]

/-- A job is listed exactly if the user can view it, and so is a decision. -/
structure SameAccess (db : Database) (user : User) : Prop where
  jobs : ∀ id job, db.jobs.get? id = some job →
    (id ∈ jobsWithViewAccess db user ↔ JobAccess.canView db.userRoles user id job = true)
  decisions : ∀ id decision job, db.decisions.get? id = some decision → db.jobs.get? decision.job = some job →
    (id ∈ decisionsWithViewAccess db user ↔ DecisionAccess.canView db.userRoles user decision job = true)

theorem job_access_iff : ((user.isManager = true ∨ user.isExpert = true ∨ listed db.userRoles user id job = true) ↔
      JobAccess.canView db.userRoles user id job = true) ↔ Agreed db.userRoles user id job := by
  cases manager : user.isManager
  · cases expert : user.isExpert
    · simp only [Bool.false_eq_true, false_or]
      exact listed_eq_canView_iff manager expert
    · simp [JobAccess.canView, Agreed, expert]
  · simp [JobAccess.canView, Agreed, manager]

/-- Lists and single objects give the same access if and only if no custom role denies what a global role grants. -/
theorem sameAccess_iff (db : Database) (user : User) :
    SameAccess db user ↔ ∀ id job, db.jobs.get? id = some job → Agreed db.userRoles user id job := by
  constructor
  · intro same id job found
    rw [← job_access_iff, ← mem_jobsWithViewAccess found]
    exact same.jobs id job found
  · intro agreed
    refine ⟨fun id job found => ?_, fun id decision job found of => ?_⟩
    · rw [mem_jobsWithViewAccess found]
      exact job_access_iff.mpr (agreed id job found)
    · rw [mem_decisionsWithViewAccess found of, job_access_iff.mpr (agreed decision.job job of)]
      simp [DecisionAccess.canView, and_comm]

/-- A job that everybody may observe, with a custom role that denies access to one producer. -/
def deniedJob : Database where
  jobs := .ofList [(1, ⟨some 1, .observer⟩)]
  decisions := .empty
  userRoles := [⟨1, 2, .noAccess⟩]
  job_of _ _ found := by cases found

/-- The producer sees the job in lists, but can not open it. -/
theorem deniedJob_listed : 1 ∈ jobsWithViewAccess deniedJob ⟨2, .producer⟩ ∧
    ∀ job, deniedJob.jobs.get? 1 = some job → JobAccess.canView deniedJob.userRoles ⟨2, .producer⟩ 1 job = false := by
  have found : deniedJob.jobs.get? 1 = some ⟨some 1, .observer⟩ := rfl
  refine ⟨by decide, fun job is => ?_⟩
  rw [found] at is
  cases is
  decide

end Klever.Bridge.Access
