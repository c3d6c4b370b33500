import WbServer.Scheduler.Sound
import WbServer.Base.Transition

/-!
# The life cycle of a scheduler on its caller's thread

`Scheduler(1, true)` has no threads of its own: `start` calls `m_root_fiber`, whose callback
is `run`, on the thread that has constructed the scheduler, and returns when `run` has
returned. A `Caller` is this scheduler between two calls of that thread.

`Phase` is an abstract model of the life cycle, which `Caller` refines (`Caller.exec_phase`).
A finished `m_root_fiber` is called exactly if `start` follows `stop` follows `start`
(`Caller.lawful_iff`), and `stop` returns with everything executed exactly if all callbacks
have been scheduled before the first `start` (`Caller.stop_drained_iff`).
-/

namespace WbServer

variable {κ : Type}

/-- The segments of the tasks; `idle` is the one of the base class. -/
abbrev Tasks (κ : Type) : Type := FiberId → κ → Segment κ

/-- The behaviour of the tasks and of `idle`. -/
def Tasks.behave (tasks : Tasks κ) : Behaviour κ
  | _, .idle => Scheduler.idle
  | f, .task k => tasks f k

theorem Tasks.baseIdle (tasks : Tasks κ) :
  BaseIdle tasks.behave
  := fun _ => rfl

theorem forall_baseIdle (bs : List (Tasks κ)) :
  ∀ behave ∈ bs.map Tasks.behave, BaseIdle behave
  := List.forall_mem_map.mpr fun tasks _ => tasks.baseIdle

/-- The tasks only schedule callbacks, and they yield ready, return or throw. -/
def Tasks.Plain (tasks : Tasks κ) : Prop :=
  ∀ f k, (tasks f k).Plain

theorem Tasks.Plain.behave {tasks : Tasks κ} (h : tasks.Plain) (f : FiberId) (c : Code κ) :
  (tasks.behave f c).Plain
  := by
  cases c with
  | idle => constructor <;> simp [Tasks.behave, Scheduler.idle]
  | task k => apply h

/-- The assertions of `start`, of `stop`, of the end of `CallMainFunc`, and within `run`. -/
inductive CallerAssertion where
  /-- `m_threads.empty()` in `start`. -/
  | threads
  /-- `GetThis() == this` in `stop`. -/
  | this
  /-- `GetThis() != this` in `stop`. -/
  | notThis
  /-- The end of `CallMainFunc` is never reached. -/
  | neverReach
  /-- An assertion that is reached from `run`. -/
  | run
  deriving DecidableEq

/-- A scheduler with `threads = 1` and `use_caller = true`: `m_thread_count` is zero.
`tScheduler` tells whether `t_scheduler` of the caller's thread is this scheduler. The code
of `m_root_fiber` is `run`; `mainFiber` is its place in the heap, where `run` finds it `EXEC`.
The records are the trace of the runs and of the calls of `scheduler`, and the states in
which `m_root_fiber` has been called. -/
structure Caller (κ : Type) extends Scheduler κ where
  mThreads : List ℤ
  mRootFiber : Fiber Unit
  mRootThread : ℤ
  tScheduler : Bool
  mainFiber : FiberId
  trace : List (Event κ)
  called : List Fiber.State
  failed : Option CallerAssertion

namespace Caller

/-- The calls of the thread. `run` returns within as many iterations as there are tasks in
the list. -/
inductive Op (κ : Type) where
  | scheduler (c : Code κ)
  | start (bs : List (Tasks κ))
  | stop

/-- The member function that is called. -/
inductive Kind where
  | scheduler
  | start
  | stop
  deriving DecidableEq

/-- The member function of a call. -/
def Op.kind : Op κ → Kind
  | .scheduler _ => .scheduler
  | .start _ => .start
  | .stop => .stop

/-- An assertion fails. -/
def fail (s : Caller κ) (a : CallerAssertion) : Caller κ :=
  { s with failed := some a }

/-- `Scheduler::scheduler` with a callback. -/
def scheduler (c : Code κ) (s : Caller κ) : Caller κ :=
  { s with
    toScheduler := s.toScheduler.scheduler (some (.cb c)) (-1)
    trace := s.trace ++ [.scheduler (some (.cb c)) (-1)] }

/-- `m_root_fiber->call()`: the context of `m_root_fiber` is resumed, which executes `run` from
the entry of `CallMainFunc`. -/
def callRootFiber (bs : List (Tasks κ)) (s : Caller κ) : Option (Caller κ) :=
  let called := s.called ++ [s.mRootFiber.mState]
  let s := { s with mRootFiber := s.mRootFiber.call, called := called }
  match s.mRootFiber.mCtx with
  | .entry =>
      match s.toScheduler.run s.mRootThread s.mainFiber (bs.map Tasks.behave) with
      | .returned t => some { s with
          toScheduler := t.toScheduler
          tScheduler := true
          mRootFiber := s.mRootFiber.callMainFuncReturn
          trace := s.trace ++ t.trace }
      | .running _ => none
      | .aborted => some (s.fail .run)
  | .suspended _ => none
  | .finished => some (s.fail .neverReach)

/-- `Scheduler::start`. -/
def start (bs : List (Tasks κ)) (s : Caller κ) : Option (Caller κ) :=
  if !s.mStoping then some s
  else
    let s := { s with mStoping := false }
    if s.mThreads = [] then s.callRootFiber bs else some (s.fail .threads)

/-- The end of `Scheduler::stop`, where the second test of `stopping()` has no effect. -/
def stopRest (s : Caller κ) : Caller κ :=
  if s.mRootThread ≠ -1 then
    if s.tScheduler then { s with mStoping := true } else s.fail .this
  else
    if s.tScheduler then s.fail .notThis else { s with mStoping := true }

/-- `Scheduler::stop`. -/
def stop (s : Caller κ) : Caller κ :=
  let s := { s with mAutoStop := true }
  if s.mRootFiber.mState = .term ∨ s.mRootFiber.mState = .init then
    let s := { s with mStoping := true }
    if s.stopping then s else s.stopRest
  else s.stopRest

/-- A call. -/
def step (op : Op κ) (s : Caller κ) : Option (Caller κ) :=
  if s.failed.isSome then none
  else
    match op with
    | .scheduler c => some (s.scheduler c)
    | .start bs => s.start bs
    | .stop => some s.stop

/-- The scheduler has been constructed, and no fiber has been executed. -/
structure Initial (s : Caller κ) : Prop where
  threads : s.mThreads = []
  rootFiber : s.mRootFiber = Fiber.new (some (.task ()))
  rootThread : 0 < s.mRootThread
  this : s.tScheduler = true
  mainFiber : s.mainFiber < s.next ∧ (s.heap s.mainFiber).mState = .exec
  heap : ∀ f, (s.heap f).mCtx = .entry
  queue : s.mFibers = []
  active : s.mActiveThreadCount = 0
  stoping : s.mStoping = true
  trace : s.trace = []
  called : s.called = []
  failed : s.failed = none

/-- The transition system of the calls. -/
def system (κ : Type) : Transition.System (Caller κ) (Op κ) where
  init := Initial
  step := step

/-- A new scheduler; fiber `0` is its root fiber. -/
def create : Caller ℕ where
  heap _ := ⟨.exec, none, .entry⟩
  next := 1
  mFibers := []
  mActiveThreadCount := 0
  mIdleThreadCount := 0
  mStoping := true
  mAutoStop := false
  mThreads := []
  mRootFiber := Fiber.new (some (.task ()))
  mRootThread := 7
  tScheduler := true
  mainFiber := 0
  trace := []
  called := []
  failed := none

theorem create_initial :
  Initial create
  where
  threads := rfl
  rootFiber := rfl
  rootThread := by decide
  this := rfl
  mainFiber := ⟨Nat.zero_lt_one, rfl⟩
  heap _ := rfl
  queue := rfl
  active := rfl
  stoping := rfl
  trace := rfl
  called := rfl
  failed := rfl

/-- `start` with tasks that return at once, for so many iterations. -/
def startReturning (n : ℕ) : Op ℕ :=
  .start (List.replicate n fun _ _ => Scheduler.idle)

/-! ### The phases -/

/-- An abstract model of the life cycle: `start` has not been called, it has been called,
or `stop` has been called after it. -/
inductive Phase where
  | created
  | started
  | stopped
  deriving DecidableEq

/-- The phase after a call; a scheduler that has been stopped does not start again. -/
def Phase.next : Phase → Kind → Option Phase
  | .created, .start => some .started
  | .started, .stop => some .stopped
  | .stopped, .start => none
  | p, _ => some p

/-- The phase after some calls. -/
def Phase.run : List Kind → Phase → Option Phase
  | [], p => some p
  | k :: ks, p => (p.next k).bind (run ks)

/-- The calls that lead out of a phase. -/
def Phase.remaining : Phase → List Kind
  | .created => [.start, .stop, .start]
  | .started => [.stop, .start]
  | .stopped => [.start]

/-- The calls are not allowed exactly if they contain the remaining ones in order. -/
theorem Phase.run_eq_none_iff (ks : List Kind) (p : Phase) :
  Phase.run ks p = none ↔ p.remaining.Sublist ks
  := by
  induction ks generalizing p with
  | nil => cases p <;> simp [run, remaining]
  | cons k ks ih =>
      have hcons : ∀ a b l, (a :: l : List Kind).Sublist (b :: ks) ↔
          if a = b then l.Sublist ks else (a :: l).Sublist ks := by
        intro a b l
        split
        case isTrue h => rw [h, List.cons_sublist_cons]
        case isFalse h => simp [List.cons_sublist_cons', h]
      rw [run]
      cases p with
      | created => cases k <;> simp [next, ih, remaining, hcons]
      | started => cases k <;> simp [next, ih, remaining, hcons]
      | stopped => cases k <;> simp [next, ih, remaining, hcons]

/-! ### The calls refine the phases -/

/-- `m_root_fiber` and `m_stoping` in a phase. -/
def At (s : Caller κ) : Phase → Prop
  | .created => s.mRootFiber = Fiber.new (some (.task ())) ∧ s.mStoping = true
  | .started =>
      s.mRootFiber.mState = .term ∧ s.mRootFiber.mCtx = .finished ∧ s.mStoping = false
  | .stopped =>
      s.mRootFiber.mState = .term ∧ s.mRootFiber.mCtx = .finished ∧ s.mStoping = true

/-- What holds between the calls as long as no assertion has failed. -/
structure Intact (s : Caller κ) : Prop where
  threads : s.mThreads = []
  rootThread : s.mRootThread ≠ -1
  this : s.tScheduler = true
  queue : s.toScheduler.Valid
  finished : ∀ f, (s.heap f).mCtx = .finished → (s.heap f).mState.Finished
  called : ∀ st ∈ s.called, ¬ st.Finished
  failed : s.failed = none

/-- At first nothing has been started. -/
theorem Initial.intact {s : Caller κ} (h : s.Initial) :
  s.Intact ∧ s.At .created
  := by
  have hthread := h.rootThread
  constructor
  · constructor
    case threads => apply h.threads
    case rootThread => omega
    case this => apply h.this
    case queue => simp [Scheduler.Valid, h.queue]
    case finished => simp [h.heap]
    case called => simp [h.called]
    case failed => apply h.failed
  · exact ⟨h.rootFiber, h.stoping⟩

/-- What `stop` does: the flags are set, and nothing is executed. -/
theorem stop_eq {s : Caller κ} (h : s.Intact) :
  s.stop = { s with mAutoStop := true, mStoping := true }
  := by
  have hrest : ∀ t : Caller κ, t.mRootThread ≠ -1 → t.tScheduler = true →
      t.stopRest = { t with mStoping := true } := by
    intro t hthread hthis
    rw [stopRest, if_pos hthread, if_pos hthis]
  unfold stop
  simp only
  split
  · split
    · rfl
    · apply hrest
      · apply h.rootThread
      · apply h.this
  · apply hrest
    · apply h.rootThread
    · apply h.this

/-- `stop` leaves the threads as they are. -/
theorem Intact.stop {s : Caller κ} (h : s.Intact) :
  s.stop.Intact
  := by
  rw [stop_eq h]
  exact ⟨h.threads, h.rootThread, h.this, h.queue, h.finished, h.called, h.failed⟩

theorem Intact.scheduler {s : Caller κ} (h : s.Intact) (c : Code κ) :
  (s.scheduler c).Intact
  where
  threads := h.threads
  rootThread := h.rootThread
  this := h.this
  finished := h.finished
  called := h.called
  failed := h.failed
  queue ft hft := by
    simp only [Caller.scheduler, Scheduler.scheduler, Scheduler.schedulerNolock_eq,
      List.mem_append] at hft
    obtain hft | hft := hft
    · apply h.queue ft hft
    · apply (Scheduler.mem_entries hft).2.2

/-- `run()` begins in a sound state. -/
theorem Intact.enter_sound {s : Caller κ} (h : s.Intact) :
  (Scheduler.enter { s.toScheduler with mStoping := false } s.mainFiber).Sound
  := Scheduler.enter_sound (s := { s.toScheduler with mStoping := false }) h.queue h.finished _

/-- The first `start` executes `run`, in which no assertion fails. -/
theorem start_created {s s' : Caller κ} {bs : List (Tasks κ)} (h : s.Intact)
    (hphase : s.At .created) (hs' : s.start bs = some s') :
  ∃ t, ({ s.toScheduler with mStoping := false }.run s.mRootThread s.mainFiber
      (bs.map Tasks.behave)) = .returned t ∧
    s'.toScheduler = t.toScheduler ∧ s'.trace = s.trace ++ t.trace ∧
    s'.Intact ∧ s'.At .started
  := by
  obtain ⟨hroot, hstoping⟩ := hphase
  have hsound := h.enter_sound
  have hentry : s.mRootFiber.call.mCtx = .entry := by rw [hroot]; rfl
  simp only [start, hstoping, Bool.not_true, Bool.false_eq_true, if_false, h.threads, if_true,
    callRootFiber, hentry] at hs'
  split at hs'
  case h_1 t ht =>
    obtain rfl := Option.some.inj hs'
    obtain ⟨hsound', hframe, -⟩ := hsound.loop_returned nofun (forall_baseIdle bs) ht
    refine ⟨t, ht, rfl, rfl, ?_, ?_⟩
    · refine ⟨rfl, h.rootThread, rfl, hsound'.queue, hsound'.finished, ?_, h.failed⟩
      intro st hst
      obtain hst | hst := List.mem_append.mp hst
      · apply h.called st hst
      · rw [List.mem_singleton.mp hst, hroot]
        exact Fiber.State.not_finished_init
    · exact ⟨rfl, rfl, hframe.stoping⟩
  case h_2 => cases hs'
  case h_3 hrun => apply absurd hrun (hsound.loop_ne_aborted nofun (forall_baseIdle bs))

/-- A `start` that is not preceded by `stop` returns at once. -/
theorem start_started {s s' : Caller κ} {bs : List (Tasks κ)} (hphase : s.At .started)
    (hs' : s.start bs = some s') :
  s' = s
  := by
  obtain ⟨-, -, hstoping⟩ := hphase
  simp only [start, hstoping, Bool.not_false, if_true] at hs'
  exact (Option.some.inj hs').symm

/-- A `start` after `stop` runs into the never-reach assertion of `CallMainFunc`. -/
theorem start_stopped {s s' : Caller κ} {bs : List (Tasks κ)} (h : s.Intact)
    (hphase : s.At .stopped) (hs' : s.start bs = some s') :
  s'.failed = some .neverReach
  := by
  obtain ⟨-, hctx, hstoping⟩ := hphase
  have hcall : s.mRootFiber.call.mCtx = .finished := hctx
  simp only [start, hstoping, Bool.not_true, Bool.false_eq_true, if_false, h.threads, if_true,
    callRootFiber, hcall] at hs'
  rw [← Option.some.inj hs']
  rfl

/-- A call before any assertion has failed. -/
theorem Intact.step_cases {s s' : Caller κ} {op : Op κ} (h : s.Intact)
    (hs' : step op s = some s') :
  (∃ c, op = .scheduler c ∧ s' = s.scheduler c) ∨
    (∃ bs, op = .start bs ∧ s.start bs = some s') ∨
    op = .stop ∧ s' = s.stop
  := by
  unfold step at hs'
  rw [h.failed, Option.isSome_none, if_neg Bool.false_ne_true] at hs'
  cases op with
  | scheduler c => exact .inl ⟨c, rfl, (Option.some.inj hs').symm⟩
  | start bs => exact .inr (.inl ⟨bs, rfl, hs'⟩)
  | stop => exact .inr (.inr ⟨rfl, (Option.some.inj hs').symm⟩)

/-- A call moves from phase to phase as the model says, and fails where the model stops. -/
theorem step_phase {s s' : Caller κ} {op : Op κ} {p : Phase} (h : s.Intact) (hphase : s.At p)
    (hs' : step op s = some s') :
  match p.next op.kind with
  | some q => s'.Intact ∧ s'.At q
  | none => s'.failed ≠ none
  := by
  obtain ⟨c, rfl, rfl⟩ | ⟨bs, rfl, hstart⟩ | ⟨rfl, rfl⟩ := h.step_cases hs'
  · have hintact := h.scheduler c
    cases p with
    | created => exact ⟨hintact, hphase⟩
    | started => exact ⟨hintact, hphase⟩
    | stopped => exact ⟨hintact, hphase⟩
  · cases p with
    | created =>
        obtain ⟨-, -, -, -, hs'⟩ := start_created h hphase hstart
        apply hs'
    | started =>
        rw [start_started hphase hstart]
        exact ⟨h, hphase⟩
    | stopped => simp [Phase.next, Op.kind, start_stopped h hphase hstart]
  · have hintact := h.stop
    rw [stop_eq h] at hintact ⊢
    cases p with
    | created => exact ⟨hintact, hphase.1, rfl⟩
    | started => exact ⟨hintact, hphase.1, hphase.2.1, rfl⟩
    | stopped => exact ⟨hintact, hphase.1, hphase.2.1, rfl⟩

/-- After a failure there are no further calls. -/
theorem exec_of_failed {s s' : Caller κ} {ops : List (Op κ)} (h : s.failed ≠ none)
    (hs' : (system κ).exec ops s = some s') :
  s'.failed ≠ none
  := by
  cases ops with
  | nil =>
      obtain rfl : s = s' := Option.some.inj hs'
      apply h
  | cons op ops =>
      obtain ⟨t, ht, -⟩ := Option.bind_eq_some_iff.mp hs'
      simp only [system, step, Option.isSome_iff_ne_none.mpr h, if_true] at ht
      cases ht

/-- Some calls move from phase to phase as the model says, and one of them fails where the
model stops. -/
theorem exec_phase {s s' : Caller κ} {ops : List (Op κ)} {p : Phase} (h : s.Intact)
    (hphase : s.At p) (hs' : (system κ).exec ops s = some s') :
  match Phase.run (ops.map Op.kind) p with
  | some q => s'.Intact ∧ s'.At q
  | none => s'.failed ≠ none
  := by
  induction ops generalizing s p with
  | nil =>
      obtain rfl : s = s' := Option.some.inj hs'
      exact ⟨h, hphase⟩
  | cons op ops ih =>
      obtain ⟨t, ht, hs'⟩ := Option.bind_eq_some_iff.mp hs'
      have hstep := step_phase h hphase ht
      rw [List.map_cons, Phase.run]
      cases hnext : p.next op.kind with
      | none =>
          rw [hnext] at hstep
          apply exec_of_failed hstep hs'
      | some q =>
          rw [hnext] at hstep
          apply ih hstep.1 hstep.2 hs'

/-- No assertion has failed, and `m_root_fiber` has not been called when it was finished. -/
def Lawful (s : Caller κ) : Prop :=
  s.failed = none ∧ ∀ st ∈ s.called, ¬ st.Finished

/-- The calls of the thread are lawful exactly if they do not contain `start`, `stop` and
`start` in this order. -/
theorem lawful_iff {s s' : Caller κ} (h : s.Initial) {ops : List (Op κ)}
    (hs' : (system κ).exec ops s = some s') :
  s'.Lawful ↔ ¬ [Kind.start, Kind.stop, Kind.start].Sublist (ops.map Op.kind)
  := by
  obtain ⟨hintact, hphase⟩ := h.intact
  have hexec := exec_phase hintact hphase hs'
  rw [show [Kind.start, Kind.stop, Kind.start] = Phase.created.remaining from rfl,
    ← Phase.run_eq_none_iff]
  cases hrun : Phase.run (ops.map Op.kind) .created with
  | none =>
      rw [hrun] at hexec
      simp only [not_true_eq_false, iff_false]
      exact fun hlawful => hexec hlawful.1
  | some q =>
      rw [hrun] at hexec
      exact iff_of_true ⟨hexec.1.failed, hexec.1.called⟩ nofun

theorem lawful_iff_start_stop :
  ∃ s', (system ℕ).exec [.scheduler (.task 0), startReturning 3, .stop] create = some s' ∧
    (s'.Lawful ↔
      ¬ [Kind.start, Kind.stop, Kind.start].Sublist [Kind.scheduler, Kind.start, Kind.stop])
  := by
  obtain ⟨s', hs'⟩ : ∃ s', (system ℕ).exec [.scheduler (.task 0), startReturning 3, .stop]
      create = some s' := ⟨_, rfl⟩
  exact ⟨s', hs', lawful_iff create_initial hs'⟩

/-- `start` again after `stop` calls the finished root fiber, which runs into the never-reach
assertion. -/
theorem restart_not_lawful :
  ∃ s', (system ℕ).exec [startReturning 2, .stop, startReturning 2] create = some s' ∧
    s'.failed = some .neverReach ∧ .term ∈ s'.called ∧ ¬ s'.Lawful
  := by
  refine ⟨_, rfl, rfl, ?_, ?_⟩
  · decide
  · exact fun hlawful => absurd hlawful.1 nofun

/-! ### What `stop` leaves -/

/-- The calls with plain tasks. -/
def Op.Plain : Op κ → Prop
  | .start bs => ∀ tasks ∈ bs, tasks.Plain
  | _ => True

/-- What holds between the calls with plain tasks: only callbacks are queued, no fiber is
suspended, no task is active, and each callback has been started or is queued. -/
structure Clear (s : Caller κ) : Prop where
  queue : ∀ it ∈ s.mFibers, ∃ c, it = ⟨.cb c, -1⟩
  suspended : ∀ f c, (s.heap f).mCtx ≠ .suspended c
  active : s.mActiveThreadCount = 0
  accounts : (scheduledCallbacks s.trace).Perm (startedCallbacks s.trace ++ callbacks s.mFibers)

/-- At first nothing is in the queue. -/
theorem Initial.clear {s : Caller κ} (h : s.Initial) :
  s.Clear
  := by
  constructor
  case queue => simp [h.queue]
  case suspended => simp [h.heap]
  case active => apply h.active
  case accounts => simp [h.trace, h.queue, scheduledCallbacks, startedCallbacks]

theorem scheduler_mFibers (c : Code κ) (s : Caller κ) :
  (s.scheduler c).mFibers = s.mFibers ++ [⟨.cb c, -1⟩]
  := by
  simp [scheduler, Scheduler.scheduler, Scheduler.schedulerNolock, Task.NonNull]

/-- A callback is added to the queue. -/
theorem Clear.scheduler {s : Caller κ} (h : s.Clear) (c : Code κ) :
  (s.scheduler c).Clear
  where
  suspended := h.suspended
  active := h.active
  queue it hit := by
    rw [scheduler_mFibers] at hit
    obtain hit | hit := List.mem_append.mp hit
    · apply h.queue it hit
    · exact ⟨c, List.mem_singleton.mp hit⟩
  accounts := by
    have hscheduled : scheduledCallbacks (s.scheduler c).trace =
        scheduledCallbacks s.trace ++ [c] := by
      simp [Caller.scheduler, scheduledCallbacks]
    have hstarted : startedCallbacks (s.scheduler c).trace = startedCallbacks s.trace := by
      simp [Caller.scheduler, startedCallbacks]
    rw [hscheduled, hstarted, scheduler_mFibers, callbacks_append, ← List.append_assoc]
    apply h.accounts.append_right [c]

/-- The first `start` executes all that is queued. -/
theorem Clear.start_created {s s' : Caller κ} {bs : List (Tasks κ)} (h : s.Clear)
    (hintact : s.Intact) (hphase : s.At .created) (hplain : ∀ tasks ∈ bs, tasks.Plain)
    (hs' : s.start bs = some s') :
  s'.Clear ∧ s'.mFibers = []
  := by
  obtain ⟨t, ht, hscheduler, htrace, -⟩ := Caller.start_created hintact hphase hs'
  have hsound := hintact.enter_sound
  have hqueues : (Scheduler.enter { s.toScheduler with mStoping := false } s.mainFiber).Queues
      none :=
    Scheduler.enter_queues (s := { s.toScheduler with mStoping := false }) h.queue h.suspended _
  have haccounts := RunState.loop_accounts hsound.queue
    (Scheduler.enter_accounts { s.toScheduler with mStoping := false } s.mainFiber) ht
  have hplain' : ∀ behave ∈ bs.map Tasks.behave, ∀ f c, (behave f c).Plain :=
    List.forall_mem_map.mpr fun tasks htasks => (hplain tasks htasks).behave
  obtain ⟨-, hframe, hreturned⟩ := hsound.loop_returned nofun (forall_baseIdle bs) ht
  obtain ⟨hempty, hqueues'⟩ := hreturned hplain' hqueues
  rw [hscheduler]
  refine ⟨?_, hempty⟩
  constructor
  case queue => simp [hscheduler, hempty]
  case suspended =>
    intro f c hf
    rw [hscheduler] at hf
    obtain ⟨it, hit, -⟩ := (hqueues'.suspended f c hf).resolve_left nofun
    simp [hempty] at hit
  case active =>
    rw [hscheduler, hframe.active]
    apply h.active
  case accounts =>
    have happend : ∀ es es' : List (Event κ), scheduledCallbacks (es ++ es') =
        scheduledCallbacks es ++ scheduledCallbacks es' := fun _ _ => List.filterMap_append
    have happend' : ∀ es es' : List (Event κ), startedCallbacks (es ++ es') =
        startedCallbacks es ++ startedCallbacks es' := fun _ _ => List.filterMap_append
    simp only [RunState.Accounts, hempty, callbacks_nil, List.append_nil] at haccounts
    rw [hscheduler, htrace, hempty, happend, happend', callbacks_nil, List.append_nil]
    apply (h.accounts.append_right _).trans
    rw [List.append_assoc]
    apply haccounts.append_left

/-- `stop` serves nothing itself. -/
theorem Clear.stop {s : Caller κ} (h : s.Clear) (hintact : s.Intact) :
  s.stop.Clear ∧ s.stop.mFibers = s.mFibers
  := by
  rw [stop_eq hintact]
  exact ⟨⟨h.queue, h.suspended, h.active, h.accounts⟩, rfl⟩

/-- A call that does not fail moves to the next phase. -/
theorem step_next {s s' : Caller κ} {op : Op κ} {p : Phase} (h : s.Intact) (hphase : s.At p)
    (hs' : step op s = some s') (hfailed : s'.failed = none) :
  ∃ q, p.next op.kind = some q ∧ s'.Intact ∧ s'.At q
  := by
  have hstep := step_phase h hphase hs'
  cases hnext : p.next op.kind with
  | none =>
      rw [hnext] at hstep
      apply absurd hfailed hstep
  | some q =>
      rw [hnext] at hstep
      exact ⟨q, rfl, hstep⟩

/-- No call leads back to the first phase. -/
theorem Phase.next_ne_created {p q : Phase} {k : Kind} (hp : p ≠ .created)
    (h : p.next k = some q) :
  q ≠ .created
  := by
  rintro rfl
  cases p with
  | created => apply hp rfl
  | started => cases k <;> simp [next] at h
  | stopped => cases k <;> simp [next] at h

/-- After the first `start`, a call executes nothing. -/
theorem Clear.step_of_ne_created {s s' : Caller κ} {op : Op κ} {p : Phase} (h : s.Clear)
    (hintact : s.Intact) (hphase : s.At p) (hp : p ≠ .created) (hs' : step op s = some s')
    (hfailed : s'.failed = none) :
  s'.Clear ∧ (s'.mFibers = [] ↔ s.mFibers = [] ∧ .scheduler ≠ op.kind)
  := by
  obtain ⟨q, hq, -⟩ := step_next hintact hphase hs' hfailed
  obtain ⟨c, rfl, rfl⟩ | ⟨bs, rfl, hstart⟩ | ⟨rfl, rfl⟩ := hintact.step_cases hs'
  · use h.scheduler c
    simp [scheduler_mFibers, Op.kind]
  · cases p with
    | created => apply absurd rfl hp
    | started =>
        rw [start_started hphase hstart]
        use h
        simp [Op.kind]
    | stopped => simp [Phase.next, Op.kind] at hq
  · obtain ⟨hclear, hqueue⟩ := h.stop hintact
    use hclear
    simp [hqueue, Op.kind]

/-- The first call of a run in which no assertion fails. -/
theorem exec_cons {s s' : Caller κ} {op : Op κ} {ops : List (Op κ)} {p : Phase} (h : s.Intact)
    (hphase : s.At p) (hs' : (system κ).exec (op :: ops) s = some s')
    (hfailed : s'.failed = none) :
  ∃ t q, step op s = some t ∧ t.failed = none ∧ p.next op.kind = some q ∧ t.Intact ∧ t.At q ∧
    (system κ).exec ops t = some s'
  := by
  obtain ⟨t, ht, hrest⟩ := Option.bind_eq_some_iff.mp hs'
  have htfailed : t.failed = none := by
    by_contra hfailed'
    apply exec_of_failed hfailed' hrest hfailed
  obtain ⟨q, hq, htintact, htphase⟩ := step_next h hphase ht htfailed
  exact ⟨t, q, ht, htfailed, hq, htintact, htphase, hrest⟩

/-- After the first `start` a callback stays in the queue. -/
theorem Clear.exec_of_ne_created {s s' : Caller κ} {ops : List (Op κ)} {p : Phase} (h : s.Clear)
    (hintact : s.Intact) (hphase : s.At p) (hp : p ≠ .created)
    (hs' : (system κ).exec ops s = some s') (hfailed : s'.failed = none) :
  s'.Clear ∧ (s'.mFibers = [] ↔ s.mFibers = [] ∧ .scheduler ∉ ops.map Op.kind)
  := by
  induction ops generalizing s p with
  | nil =>
      obtain rfl : s = s' := Option.some.inj hs'
      exact ⟨h, by simp⟩
  | cons op ops ih =>
      obtain ⟨t, q, ht, htfailed, hq, htintact, htphase, hs'⟩ :=
        exec_cons hintact hphase hs' hfailed
      obtain ⟨hclear, hstep⟩ := h.step_of_ne_created hintact hphase hp ht htfailed
      obtain ⟨hclear', hexec⟩ := ih hclear htintact htphase (Phase.next_ne_created hp hq) hs'
      use hclear'
      rw [hexec, hstep, List.map_cons, List.mem_cons, not_or, and_assoc]

/-- Until the first `start` all callbacks stay in the queue; it executes them. -/
theorem Clear.exec_of_created {s s' : Caller κ} {ops : List (Op κ)} (h : s.Clear)
    (hintact : s.Intact) (hphase : s.At .created) (hplain : ∀ op ∈ ops, op.Plain)
    (hs' : (system κ).exec ops s = some s') (hfailed : s'.failed = none) :
  s'.Clear ∧ (s'.mFibers = [] ↔
    ¬ [Kind.start, Kind.scheduler].Sublist (ops.map Op.kind) ∧
      (s.mFibers ≠ [] ∨ .scheduler ∈ ops.map Op.kind → .start ∈ ops.map Op.kind))
  := by
  induction ops generalizing s with
  | nil =>
      obtain rfl : s = s' := Option.some.inj hs'
      exact ⟨h, by simp⟩
  | cons op ops ih =>
      obtain ⟨t, q, ht, -, hq, htintact, htphase, hrest⟩ := exec_cons hintact hphase hs' hfailed
      obtain ⟨hop, hops⟩ := List.forall_mem_cons.mp hplain
      obtain ⟨c, rfl, rfl⟩ | ⟨bs, rfl, hstart⟩ | ⟨rfl, rfl⟩ := hintact.step_cases ht
      · obtain rfl : Phase.created = q := Option.some.inj hq
        obtain ⟨hclear, hexec⟩ := ih (h.scheduler c) htintact htphase hops hrest
        use hclear
        rw [hexec]
        simp [scheduler_mFibers, Op.kind, List.cons_sublist_cons']
      · obtain rfl : Phase.started = q := Option.some.inj hq
        obtain ⟨hclear, hempty⟩ := h.start_created hintact hphase hop hstart
        obtain ⟨hclear', hexec⟩ :=
          hclear.exec_of_ne_created htintact htphase nofun hrest hfailed
        use hclear'
        rw [hexec]
        simp [hempty, Op.kind, List.cons_sublist_cons]
      · obtain rfl : Phase.created = q := Option.some.inj hq
        obtain ⟨hclear, hqueue⟩ := h.stop hintact
        obtain ⟨hclear', hexec⟩ := ih hclear htintact htphase hops hrest
        use hclear'
        rw [hexec, hqueue]
        simp [Op.kind, List.cons_sublist_cons']

/-- `stopping()` holds, no task is suspended, and every callback that has been scheduled has
been started. -/
def Drained (s : Caller κ) : Prop :=
  s.stopping = true ∧ (∀ f c, (s.heap f).mCtx ≠ .suspended c) ∧
    (scheduledCallbacks s.trace).Perm (startedCallbacks s.trace)

/-- `stop` returns with all callbacks executed to their end exactly if none has been scheduled
after a `start` and, if any has been scheduled, `start` has been called. -/
theorem stop_drained_iff {s s' : Caller κ} (h : s.Initial) {ops : List (Op κ)}
    (hplain : ∀ op ∈ ops, op.Plain) (hs' : (system κ).exec (ops ++ [.stop]) s = some s') :
  s'.Drained ↔ ¬ [Kind.start, Kind.scheduler].Sublist (ops.map Op.kind) ∧
    (.scheduler ∈ ops.map Op.kind → .start ∈ ops.map Op.kind)
  := by
  rw [Transition.System.exec_append] at hs'
  obtain ⟨t, ht, hstop⟩ := Option.bind_eq_some_iff.mp hs'
  obtain ⟨u, hu, hnil⟩ := Option.bind_eq_some_iff.mp hstop
  obtain rfl : u = s' := Option.some.inj hnil
  have hfailed : t.failed = none := by
    by_contra hfailed
    simp [system, step, Option.isSome_iff_ne_none.mpr hfailed] at hu
  obtain ⟨hintact, hphase⟩ := h.intact
  obtain ⟨hclear, hqueue⟩ := h.clear.exec_of_created hintact hphase hplain ht hfailed
  have htintact : t.Intact := by
    have hexec := exec_phase hintact hphase ht
    split at hexec
    · apply hexec.1
    · apply absurd hfailed hexec
  have hu' : u = t.stop := by
    simpa [system, step, hfailed] using hu.symm
  have hempty : u.Drained ↔ t.mFibers = [] := by
    rw [hu', stop_eq htintact]
    constructor
    · rintro ⟨hstopping, -⟩
      simp only [Scheduler.stopping, Bool.and_eq_true] at hstopping
      apply List.isEmpty_iff.mp hstopping.1.2
    · intro hempty
      refine ⟨?_, hclear.suspended, ?_⟩
      · simp [Scheduler.stopping, hempty, hclear.active]
      · simpa [hempty] using hclear.accounts
  rw [hempty, hqueue]
  simp [h.queue]

theorem startReturning_plain (n : ℕ) :
  (startReturning n).Plain
  := by
  intro tasks htasks
  rw [List.eq_of_mem_replicate htasks]
  intro f k
  constructor <;> simp [Scheduler.idle]

theorem stop_drained_iff_start :
  ∃ s', (system ℕ).exec ([.scheduler (.task 0), startReturning 3] ++ [.stop]) create = some s' ∧
    (s'.Drained ↔
      ¬ [Kind.start, Kind.scheduler].Sublist [Kind.scheduler, Kind.start] ∧
        (.scheduler ∈ [Kind.scheduler, Kind.start] → .start ∈ [Kind.scheduler, Kind.start]))
  := by
  have hplain : ∀ op ∈ [.scheduler (.task 0), startReturning 3], Op.Plain op := by
    rw [List.forall_mem_cons, List.forall_mem_singleton]
    exact ⟨trivial, startReturning_plain 3⟩
  obtain ⟨s', hs'⟩ : ∃ s', (system ℕ).exec ([.scheduler (.task 0), startReturning 3] ++ [.stop])
      create = some s' := ⟨_, rfl⟩
  exact ⟨s', hs', stop_drained_iff create_initial hplain hs'⟩

/-- A callback scheduled after `start`, and a callback without any `start`, are left in the
queue by `stop`. -/
theorem stop_not_drained :
  (∃ s', (system ℕ).exec [startReturning 2, .scheduler (.task 0), .stop] create = some s' ∧
      s'.failed = none ∧ s'.stopping = false ∧ s'.mFibers = [⟨.cb (.task 0), -1⟩]) ∧
    ∃ s', (system ℕ).exec [.scheduler (.task 0), .stop] create = some s' ∧
      s'.failed = none ∧ s'.stopping = false ∧ s'.mFibers = [⟨.cb (.task 0), -1⟩]
  := ⟨⟨_, rfl, rfl, rfl, rfl⟩, _, rfl, rfl, rfl, rfl⟩

end Caller

end WbServer
