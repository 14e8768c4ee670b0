import Klever.Lib.Run

/-!
# Workers for the elements of a queue

`launch_queue_workers` receives elements from a queue until a terminator comes, starts a worker for each of them while fewer
workers than allowed are running, and takes those out that have ended.

When elements can be received and when workers end is given by the setting, iteration by iteration. A worker is denoted by
the number of its element. Each iteration either does nothing, or there is less to do after it (`iteration_busy`). While the
loop does nothing, it waits for the queue or for a worker, so it ends at last.
-/

namespace Klever.Core.QueueWorkers

open Klever.Lib List

variable {α : Type}

/-- The arguments, and what happens outside. -/
structure Setting (α : Type) where
  /-- what comes before the terminator -/
  queue : List α
  maxThreads : Nat
  failTolerant : Bool
  /-- how often `get_nowait` succeeds in an iteration -/
  available : Nat → Nat
  /-- Is the worker no longer alive when an iteration comes to it? -/
  ended : Nat → Nat → Bool
  /-- Is its exit code not zero? -/
  fails : Nat → Bool
  /-- Does `check_components` find in an iteration that a component of `monitoring_list` has failed? -/
  monitorFails : Nat → Bool
  ended_succ : ∀ n w, ended n w = true → ended (n + 1) w = true

structure Pool (α : Type) where
  active : Bool
  /-- what has not been received -/
  queue : List α
  elements : List α
  /-- elements whose workers have been started -/
  started : List α
  components : List Nat
  ret : Nat
  deriving DecidableEq

/-- How the loop goes on. -/
inductive Status (α : Type)
  | running (p : Pool α)
  | returned (p : Pool α)
  | raised
  deriving DecidableEq

/-- `drain_queue`: whether elements may still come, what is left in the queue and the collection -/
def drainQueue : (available : Nat) → (queue collection : List α) → Bool × List α × List α
  | 0, queue, collection => (true, queue, collection)
  | _ + 1, [], collection => (false, [], collection)
  | n + 1, element :: queue, collection => drainQueue n queue (collection ++ [element])

namespace Pool

/-- The loop that starts workers. -/
def startWorkers : Nat → Pool α → Pool α
  | 0, p => p
  | n + 1, p =>
    match p.elements with
    | [] => p
    | element :: rest => startWorkers n { p with
        elements := rest
        started := p.started ++ [element]
        components := p.components ++ [p.started.length] }

variable (s : Setting α) (n : Nat) (p : Pool α)

/-- Fetch all new elements. -/
def fetch : Pool α :=
  if p.active then
    let (active, queue, elements) := drainQueue (s.available n) p.queue p.elements
    { p with active, queue, elements }
  else p

/-- Run new workers. -/
def launch : Pool α :=
  if p.components.length < s.maxThreads ∧ p.elements.length > 0 then
    p.startWorkers (min (s.maxThreads - p.components.length) p.elements.length)
  else p

/-- Wait for components termination, beginning with the last one. Nothing comes back for a `ComponentError`. -/
def waitAll : (components : List Nat) → (ret : Nat) → Option (List Nat × Nat)
  | [], ret => some ([], ret)
  | component :: rest, ret => do
    let (rest, ret) ← waitAll rest ret
    if s.ended n component then
      if s.fails component && !s.failTolerant then none
      else return (rest, if s.fails component then 1 else ret)
    else return (component :: rest, ret)

@[inherit_doc waitAll]
def reap : Option (Pool α) := (waitAll s n p.components p.ret).map fun (components, ret) => { p with components, ret }

/-- The loop can quit. -/
def Done : Prop := p.components = [] ∧ p.elements = [] ∧ p.active = false

instance : Decidable p.Done := inferInstanceAs (Decidable (_ ∧ _ ∧ _))

/-- What is left to do. -/
def work : Nat := 3 * p.queue.length + p.active.toNat + 2 * p.elements.length + p.components.length

end Pool

namespace Setting

variable (s : Setting α)

/-- The body of the loop. -/
def iteration (n : Nat) (p : Pool α) : Status α :=
  match ((p.fetch s n).launch s).reap s n with
  | none => .raised
  | some p =>
    if s.monitorFails n then .raised
    else if p.Done then .returned p
    else .running p

/-- `launch_queue_workers` after some iterations. -/
def launchQueueWorkers : Nat → Status α
  | 0 => .running ⟨true, s.queue, [], [], [], 0⟩
  | n + 1 =>
    match launchQueueWorkers n with
    | .running p => s.iteration n p
    | status => status

/-- All elements and the terminator can be received at last, and all workers end. -/
structure Fair : Prop where
  comes : ∀ n, ∃ m ≥ n, 0 < s.available m
  ends : ∀ w < s.queue.length, ∃ n, s.ended n w = true

/-- Workers are started once for each element and in order, and before an iteration all but those listed have ended. -/
structure Orderly (n : Nat) (p : Pool α) : Prop where
  order : p.started ++ p.elements ++ p.queue = s.queue
  closed : p.active = false → p.queue = []
  known : ∀ w ∈ p.components, w < p.started.length
  few : p.components.length ≤ s.maxThreads
  others : ∀ w < p.started.length, w ∉ p.components →
    (∃ m < n, s.ended m w = true) ∧ (s.fails w = true → s.failTolerant = true)

end Setting

variable {s : Setting α} {n : Nat} {p q : Pool α}

/-! ## The steps of an iteration -/

theorem drainQueue_spec (available : Nat) (queue collection : List α) :
    let (active, rest, elements) := drainQueue available queue collection
    elements ++ rest = collection ++ queue ∧ (active = false → rest = []) ∧
      (3 * rest.length + active.toNat + 2 * elements.length < 3 * queue.length + 1 + 2 * collection.length ∨
        available = 0) := by
  induction available generalizing queue collection with
  | zero => simp [drainQueue]
  | succ n ih =>
    cases queue with
    | nil => simp [drainQueue]
    | cons element queue =>
      obtain ⟨same, closed, less⟩ := ih queue (collection ++ [element])
      refine ⟨by simpa using same, closed, .inl ?_⟩
      obtain less | rfl := less
      · simp only [length_append, length_cons, length_nil] at less ⊢
        omega
      · simp only [drainQueue, length_append, length_cons, length_nil, Bool.toNat_true]
        omega

theorem Setting.Orderly.fetch (orderly : s.Orderly n p) : s.Orderly n (p.fetch s n) := by
  unfold Pool.fetch
  split
  · obtain ⟨same, closed, -⟩ := drainQueue_spec (s.available n) p.queue p.elements
    refine { orderly with order := ?_, closed := closed }
    rw [append_assoc, same, ← append_assoc]
    exact orderly.order
  · exact orderly

/-- Elements are received, or the pool stays as it is. -/
theorem fetch_work : (p.fetch s n).work < p.work ∨ p.fetch s n = p ∧ (p.active = true → s.available n = 0) := by
  unfold Pool.fetch
  split
  next active =>
    obtain ⟨-, -, less | none⟩ := drainQueue_spec (s.available n) p.queue p.elements
    · left
      simp only [Pool.work, active, Bool.toNat_true]
      omega
    · right
      rw [none, drainQueue, ← active]
      exact ⟨rfl, fun _ => rfl⟩
  next waits => exact .inr ⟨rfl, fun active => absurd active waits⟩

theorem Setting.Orderly.startWorkers {k : Nat} (orderly : s.Orderly n p)
    (room : p.components.length + k ≤ s.maxThreads) : s.Orderly n (p.startWorkers k) := by
  induction k generalizing p with
  | zero => exact orderly
  | succ k ih =>
    rw [Pool.startWorkers]
    cases is : p.elements with
    | nil => exact orderly
    | cons element rest =>
      refine ih ?_ (by simp only [length_append, length_singleton]; omega)
      refine ⟨?_, orderly.closed, fun w mem => ?_, ?_, fun w lt absent => ?_⟩
      · rw [← orderly.order, is]
        simp
      · rw [length_append, length_singleton]
        obtain mem | new := mem_append.mp mem
        · exact (orderly.known w mem).trans (Nat.lt_succ_self _)
        · exact mem_singleton.mp new ▸ Nat.lt_succ_self _
      · simp only [length_append, length_singleton]
        omega
      · simp only [length_append, length_singleton, mem_append, mem_singleton, not_or] at lt absent
        exact orderly.others w (by omega) absent.1

theorem Setting.Orderly.launch (orderly : s.Orderly n p) : s.Orderly n (p.launch s) := by
  unfold Pool.launch
  split
  next room => exact orderly.startWorkers (by omega)
  next => exact orderly

theorem startWorkers_work {k : Nat} (enough : k ≤ p.elements.length) : (p.startWorkers k).work + k = p.work := by
  induction k generalizing p with
  | zero => rfl
  | succ k ih =>
    rw [Pool.startWorkers]
    cases is : p.elements with
    | nil => simp [is] at enough
    | cons element rest =>
      rw [is, length_cons] at enough
      have started := @ih { p with
        elements := rest
        started := p.started ++ [element]
        components := p.components ++ [p.started.length] } (Nat.le_of_succ_le_succ enough)
      simp only [Pool.work, is, length_append, length_cons, length_nil] at started ⊢
      omega

/-- Workers are started, or the pool stays as it is. -/
theorem launch_work : (p.launch s).work < p.work ∨
    p.launch s = p ∧ (p.components.length < s.maxThreads → p.elements = []) := by
  unfold Pool.launch
  split
  next room =>
    have := @startWorkers_work _ p (min (s.maxThreads - p.components.length) p.elements.length) (by omega)
    exact .inl (by omega)
  next full => exact .inr ⟨rfl, fun room => length_eq_zero_iff.mp (by omega)⟩

/-- A failed worker has ended. -/
def Setting.failed (s : Setting α) (n w : Nat) : Bool := s.ended n w && s.fails w

theorem waitAll_eq (components : List Nat) (ret : Nat) : Pool.waitAll s n components ret =
    if components.any (s.failed n) && !s.failTolerant then none
    else some (components.filter (!s.ended n ·), if components.any (s.failed n) then 1 else ret) := by
  induction components with
  | nil => rfl
  | cons w rest ih =>
    rw [Pool.waitAll, ih]
    cases s.failTolerant <;> cases any : rest.any (s.failed n) <;> cases ends : s.ended n w <;>
      cases fails : s.fails w <;> simp [Setting.failed, any, ends, fails]

/-- What has ended is taken out, or an error is raised if a worker failed and this is not tolerated. -/
theorem reap_eq : p.reap s n = if p.components.any (s.failed n) && !s.failTolerant then none
    else some { p with
      components := p.components.filter (!s.ended n ·)
      ret := if p.components.any (s.failed n) then 1 else p.ret } := by
  rw [Pool.reap, waitAll_eq]
  split <;> rfl

theorem ended_before_succ {w : Nat} (ends : ∃ m < n, s.ended m w = true) : ∃ m < n + 1, s.ended m w = true := by
  obtain ⟨m, before, ends⟩ := ends
  exact ⟨m, before.trans (Nat.lt_succ_self n), ends⟩

theorem Setting.Orderly.reap (orderly : s.Orderly n p) (done : p.reap s n = some q) : s.Orderly (n + 1) q := by
  rw [reap_eq] at done
  split at done
  next => cases done
  next survives =>
    cases done
    refine { orderly with
      known := fun w mem => orderly.known w (mem_filter.mp mem).1
      few := (length_filter_le _ _).trans orderly.few
      others := fun w lt absent => ?_ }
    by_cases mem : w ∈ p.components
    · have ends : s.ended n w = true := by
        by_contra alive
        exact absent (mem_filter.mpr ⟨mem, by simpa using alive⟩)
      refine ⟨⟨n, Nat.lt_succ_self n, ends⟩, fun fails => ?_⟩
      by_contra fatal
      refine survives (Bool.and_eq_true_iff.mpr ⟨any_eq_true.mpr ⟨w, mem, ?_⟩, by simpa using fatal⟩)
      rw [Setting.failed, ends, fails]
      rfl
    · exact (orderly.others w lt mem).imp_left ended_before_succ

/-- Workers are taken out, or the pool stays as it is. -/
theorem reap_work (done : p.reap s n = some q) : q.work < p.work ∨ q = p ∧ ∀ w ∈ p.components, s.ended n w = false := by
  rw [reap_eq] at done
  split at done
  next => cases done
  next =>
    cases done
    by_cases alive : ∀ w ∈ p.components, s.ended n w = false
    · right
      have none : p.components.any (s.failed n) = false :=
        any_eq_false.mpr fun w mem => by simp [Setting.failed, alive w mem]
      rw [none, filter_eq_self.mpr fun w mem => by simp [alive w mem]]
      exact ⟨rfl, alive⟩
    · left
      push Not at alive
      obtain ⟨w, mem, ends⟩ := alive
      have fewer : (p.components.filter (!s.ended n ·)).length < p.components.length :=
        length_filter_lt_length_iff_exists.mpr ⟨w, mem, by simpa using ends⟩
      simp only [Pool.work]
      omega

/-! ## Iterations -/

theorem iteration_running (next : s.iteration n p = .running q) :
    ((p.fetch s n).launch s).reap s n = some q ∧ ¬ q.Done := by
  unfold Setting.iteration at next
  grind

theorem iteration_returned (next : s.iteration n p = .returned q) :
    ((p.fetch s n).launch s).reap s n = some q ∧ q.Done := by
  unfold Setting.iteration at next
  grind

/-- There is less to do after an iteration, or the loop waits. -/
theorem iteration_busy (next : s.iteration n p = .running q) : q.work < p.work ∨
    q = p ∧ (p.active = true → s.available n = 0) ∧ (p.components.length < s.maxThreads → p.elements = []) ∧
      (∀ w ∈ p.components, s.ended n w = false) ∧ ¬ p.Done := by
  obtain ⟨done, unfinished⟩ := iteration_running next
  have launches : ((p.fetch s n).launch s).work ≤ (p.fetch s n).work :=
    launch_work.elim Nat.le_of_lt fun same => (congrArg Pool.work same.1).le
  have reaps : q.work ≤ ((p.fetch s n).launch s).work :=
    (reap_work done).elim Nat.le_of_lt fun same => (congrArg Pool.work same.1).le
  obtain less | ⟨fetched, waits⟩ := @fetch_work _ s n p
  · exact .inl (by omega)
  rw [fetched] at done launches reaps
  obtain less | ⟨launched, full⟩ := @launch_work _ s p
  · exact .inl (by omega)
  rw [launched] at done
  obtain less | ⟨rfl, alive⟩ := reap_work done
  · exact .inl less
  · exact .inr ⟨rfl, waits, full, alive, unfinished⟩

theorem Setting.Orderly.lt_length {w : Nat} (orderly : s.Orderly n p) (mem : w ∈ p.components) : w < s.queue.length := by
  have lt := orderly.known w mem
  rw [← orderly.order, length_append, length_append]
  omega

theorem orderly_of_running (at_n : s.launchQueueWorkers n = .running p) : s.Orderly n p := by
  induction n generalizing p with
  | zero =>
    cases at_n
    exact ⟨rfl, nofun, fun _ mem => absurd mem not_mem_nil, Nat.zero_le _, fun _ lt => absurd lt (Nat.not_lt_zero _)⟩
  | succ n ih =>
    rw [Setting.launchQueueWorkers] at at_n
    split at at_n
    next r before => exact (ih before).fetch.launch.reap (iteration_running at_n).1
    next other => exact absurd at_n (other p)

/-- What holds when the function returns. -/
theorem returned_spec (at_n : s.launchQueueWorkers n = .returned p) : p.started = s.queue ∧ p.active = false ∧
    ∀ w < s.queue.length, (∃ m < n, s.ended m w = true) ∧ (s.fails w = true → s.failTolerant = true) := by
  induction n with
  | zero => cases at_n
  | succ n ih =>
    rw [Setting.launchQueueWorkers] at at_n
    split at at_n
    next r before =>
      obtain ⟨done, components, elements, closed⟩ := iteration_returned at_n
      have orderly := (orderly_of_running before).fetch.launch.reap done
      have all := orderly.order
      rw [elements, orderly.closed closed, append_nil, append_nil] at all
      refine ⟨all, closed, fun w lt => orderly.others w (all ▸ lt) ?_⟩
      rw [components]
      exact not_mem_nil
    next =>
      obtain ⟨all, closed, ends⟩ := ih at_n
      exact ⟨all, closed, fun w lt => (ends w lt).imp_left ended_before_succ⟩

/-- Nothing is raised unless something fails. -/
theorem not_raised (works : ∀ w < s.queue.length, s.fails w = false) (quiet : ∀ n, s.monitorFails n = false) (n : Nat) :
    s.launchQueueWorkers n ≠ .raised := by
  induction n with
  | zero => exact nofun
  | succ n ih =>
    rw [Setting.launchQueueWorkers]
    split
    next p before =>
      have orderly := (orderly_of_running before).fetch.launch
      have alive : ((p.fetch s n).launch s).components.any (s.failed n) = false := by
        refine any_eq_false.mpr fun w mem => ?_
        rw [Setting.failed, works w (orderly.lt_length mem), Bool.and_false]
        exact Bool.false_ne_true
      rw [Setting.iteration, reap_eq, alive]
      simp only [Bool.false_and, Bool.false_eq_true, if_false, quiet]
      split <;> exact nofun
    next => exact ih

theorem ended_mono {w m : Nat} (le : n ≤ m) (ends : s.ended n w = true) : s.ended m w = true :=
  Nat.le_induction ends (fun k _ ends => s.ended_succ k w ends) m le

/-- The loop does not wait for ever. -/
theorem exists_ended (fair : s.Fair) (pos : 0 < s.maxThreads) :
    ∃ n, (∃ p, s.launchQueueWorkers n = .returned p) ∨ s.launchQueueWorkers n = .raised := by
  by_contra never
  have running (n : Nat) : ∃ p, s.launchQueueWorkers n = .running p := by
    cases is : s.launchQueueWorkers n with
    | running p => exact ⟨p, rfl⟩
    | returned p => exact absurd ⟨n, .inl ⟨p, is⟩⟩ never
    | raised => exact absurd ⟨n, .inr is⟩ never
  choose pool here using running
  have next (n : Nat) : s.iteration n (pool n) = .running (pool (n + 1)) := by
    have step := here (n + 1)
    rwa [Setting.launchQueueWorkers, here n] at step
  -- from some iteration on there is the same to do
  obtain ⟨n, least⟩ : ∃ n, ∀ m, (pool n).work ≤ (pool m).work :=
    ⟨_, fun m => Function.argmin_le (fun n => (pool n).work) m⟩
  have same (m : Nat) (le : n ≤ m) : pool m = pool n := by
    induction m, le using Nat.le_induction with
    | base => rfl
    | succ m _ ih =>
      obtain less | ⟨is, -⟩ := iteration_busy (next m)
      · exact absurd (ih ▸ less) (not_lt.mpr (least _))
      · exact is.trans ih
  have waits (m : Nat) (le : n ≤ m) := (iteration_busy (same m le ▸ next m)).resolve_left (not_lt.mpr (least _))
  have inactive : (pool n).active = false := by
    obtain ⟨m, le, comes⟩ := fair.comes n
    rw [← Bool.not_eq_true]
    exact fun active => comes.ne' ((waits m le).2.1 active)
  have idle : (pool n).components = [] := by
    rw [eq_nil_iff_forall_not_mem]
    intro w mem
    obtain ⟨m, ends⟩ := fair.ends w ((orderly_of_running (here n)).lt_length mem)
    have alive := (waits (max n m) (le_max_left n m)).2.2.2.1 w mem
    rw [ended_mono (le_max_right n m) ends] at alive
    cases alive
  obtain ⟨-, -, full, -, unfinished⟩ := waits n le_rfl
  exact unfinished ⟨idle, full (by rwa [idle]), inactive⟩

/-- Elements are given to workers once and in their order, and all but the allowed number of them have ended at any time.
When the function returns, the terminator has been received, and all elements have had workers, which have ended. It returns if
no worker and no monitored component fails, and it raises if a worker fails and failures are fatal. -/
theorem launchQueueWorkers_exact (pos : 0 < s.maxThreads) :
    (∀ n p, s.launchQueueWorkers n = .running p → s.Orderly n ((p.fetch s n).launch s)) ∧
      (∀ n p, s.launchQueueWorkers n = .returned p → p.started = s.queue ∧ p.active = false ∧
        ∀ w < s.queue.length, ∃ m < n, s.ended m w = true) ∧
      (s.Fair → ((∀ w < s.queue.length, s.fails w = false) → (∀ n, s.monitorFails n = false) →
          ∃ n p, s.launchQueueWorkers n = .returned p) ∧
        (s.failTolerant = false → (∃ w < s.queue.length, s.fails w = true) → ∃ n, s.launchQueueWorkers n = .raised)) := by
  refine ⟨fun n p at_n => (orderly_of_running at_n).fetch.launch, fun n p at_n => ?_, fun fair => ⟨fun works quiet => ?_, ?_⟩⟩
  · obtain ⟨all, closed, ends⟩ := returned_spec at_n
    exact ⟨all, closed, fun w lt => (ends w lt).1⟩
  · obtain ⟨n, returns | raises⟩ := exists_ended fair pos
    · exact ⟨n, returns⟩
    · exact absurd raises (not_raised works quiet n)
  · rintro fatal ⟨w, lt, fails⟩
    obtain ⟨n, ⟨p, returns⟩ | raises⟩ := exists_ended fair pos
    · have tolerated := ((returned_spec returns).2.2 w lt).2 fails
      rw [fatal] at tolerated
      cases tolerated
    · exact ⟨n, raises⟩

/-- Three elements, two of which can be received at once, for two workers that end one after another. -/
def threeElements : Setting String where
  queue := ["a", "b", "c"]
  maxThreads := 2
  failTolerant := false
  available _ := 2
  ended n w := w < n
  fails _ := false
  monitorFails _ := false
  ended_succ n w ends := by
    rw [decide_eq_true_eq] at ends ⊢
    exact ends.trans (Nat.lt_succ_self n)

theorem threeElements_exact : ∃ n p, threeElements.launchQueueWorkers n = .returned p ∧ p.started = ["a", "b", "c"] ∧
    p.active = false := by
  have fair : threeElements.Fair := ⟨fun n => ⟨n, le_rfl, Nat.two_pos⟩, fun w _ => ⟨w + 1, by simp [threeElements]⟩⟩
  obtain ⟨-, returned, live⟩ := launchQueueWorkers_exact (s := threeElements) Nat.two_pos
  obtain ⟨n, p, at_n⟩ := (live fair).1 (fun _ _ => rfl) fun _ => rfl
  obtain ⟨all, closed, -⟩ := returned n p at_n
  exact ⟨n, p, at_n, all, closed⟩

end Klever.Core.QueueWorkers
