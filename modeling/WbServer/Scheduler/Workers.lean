import WbServer.Scheduler.Run
import WbServer.Base.Transition

/-!
# Any number of threads in `Scheduler::run`

The threads that execute `Scheduler::run` on one scheduler interleave at the steps that
touch what they share: the locked scan, the choice of the branch, the increment and the
decrement of the counters, the state write of `swap_in`, the calls a task makes, the state
write at the end of a segment, the switch back, and what `run` does with the fiber
afterwards. `Pc` is the place of a thread between two such steps.

A failing assertion ends the process, which `failed` records; no step follows it.
-/

namespace WbServer

/-- A thread, by the id that `get_thread_id()` returns. -/
abbrev ThreadId : Type := ℤ

/-- The branch of the loop in which a fiber is switched into. -/
inductive Branch where
  | fiber
  | cb
  | idle
  deriving DecidableEq

/-- The assertions of the loop that depend on the state. -/
inductive Assertion where
  /-- `m_state != EXEC` in `swap_in`. -/
  | swapIn
  /-- The states in which `reset` is allowed. -/
  | reset
  /-- The end of `MainFunc` is never reached. -/
  | neverReach
  deriving DecidableEq

/-- Where a thread is in `run`. -/
inductive Pc (κ : Type) where
  /-- Not in `run`. -/
  | outside
  /-- At the head of the loop. -/
  | head
  /-- Behind the scan, with the entry taken from the queue. -/
  | dispatch (ft : Option (FiberAndThread κ))
  /-- In a branch, in front of the increment of its counter. -/
  | count (b : Branch) (f : FiberId)
  /-- In front of `swap_in`. -/
  | enter (b : Branch) (f : FiberId)
  /-- Inside the fiber, executing its code. -/
  | inside (b : Branch) (f : FiberId)
  /-- Inside the fiber, behind the state write that ends its segment; `ctx` is saved when
  it switches out. -/
  | leaving (b : Branch) (f : FiberId) (ctx : Fiber.Context κ)
  /-- Switched back, in front of the decrement of the counter. -/
  | back (b : Branch) (f : FiberId)
  /-- In front of the test of the state of the fiber. -/
  | settle (b : Branch) (f : FiberId)
  /-- The fiber was found `READY`, in front of the call that queues it. -/
  | requeue (b : Branch) (f : FiberId)
  deriving DecidableEq

/-- A thread: its place and its variables `idle_fiber` and `cb_fiber`. -/
structure Worker (κ : Type) where
  pc : Pc κ
  idleFiber : FiberId
  cbFiber : Option FiberId

/-- The scheduler and the threads. -/
structure Workers (κ : Type) extends Scheduler κ where
  worker : ThreadId → Worker κ
  failed : Option Assertion

/-- The steps: those of the thread `w`, and calls from outside of the scheduler. -/
inductive Action (κ : Type) where
  | run (w : ThreadId)
  | scan (w : ThreadId)
  | dispatch (w : ThreadId)
  | count (w : ThreadId)
  | swapIn (w : ThreadId)
  | call (w : ThreadId) (c : Call κ)
  | leave (w : ThreadId) (e : Ending κ)
  | swapOut (w : ThreadId)
  | uncount (w : ThreadId)
  | settle (w : ThreadId)
  | requeue (w : ThreadId)
  | schedule (c : Call κ)
  | setStoping (b : Bool)
  | setAutoStop (b : Bool)

variable {κ : Type}

/-- The thread that a step is of. -/
def Action.worker? : Action κ → Option ThreadId
  | .run w => some w
  | .scan w => some w
  | .dispatch w => some w
  | .count w => some w
  | .swapIn w => some w
  | .call w _ => some w
  | .leave w _ => some w
  | .swapOut w => some w
  | .uncount w => some w
  | .settle w => some w
  | .requeue w => some w
  | .schedule _ => none
  | .setStoping _ => none
  | .setAutoStop _ => none

/-- A fiber at its entry with an empty callback, which can only throw. -/
def Fiber.isEmpty (f : Fiber κ) : Bool :=
  match f.mCtx, f.mCb with
  | .entry, none => true
  | _, _ => false

/-- A context behind the end of `MainFunc`. -/
def Fiber.Context.isFinished : Fiber.Context κ → Bool
  | .finished => true
  | _ => false

/-- The segment ends by an exception. -/
def Ending.isThrow : Ending κ → Bool
  | .throw => true
  | _ => false

/-- The state write and the context of the end of a segment. -/
def Ending.write (e : Ending κ) (f : Fiber κ) : Fiber κ × Fiber.Context κ :=
  match e with
  | .yieldToReady rest => ({ f with mState := .ready }, .suspended rest)
  | .yeidToHold rest => ({ f with mState := .hold }, .suspended rest)
  | .ret => ({ f with mCb := none, mState := .term }, .finished)
  | .throw => ({ f with mState := .except }, .finished)

/-- What a call of a task does to the scheduler. -/
def Scheduler.call (s : Scheduler κ) : Call κ → Scheduler κ
  | .scheduler fc thread => s.scheduler fc thread
  | .newFiber cb =>
      { s with heap := Function.update s.heap s.next (Fiber.new cb), next := s.next + 1 }

/-- An entry that `run` executes: a callback, or a fiber that is not finished. -/
def FiberAndThread.Runnable (heap : FiberId → Fiber κ) (ft : FiberAndThread κ) : Prop :=
  match ft.task with
  | .fiber f => ¬ (heap f).mState.Finished
  | .cb _ => True

namespace Workers

/-- The thread `w` moves to `pc`. -/
def setPc (s : Workers κ) (w : ThreadId) (pc : Pc κ) : Workers κ :=
  { s with worker := Function.update s.worker w { s.worker w with pc := pc } }

/-- Stores a fiber. -/
def set (s : Workers κ) (f : FiberId) (fb : Fiber κ) : Workers κ :=
  { s with heap := Function.update s.heap f fb }

/-- Assigns `cb_fiber` of the thread `w`. -/
def setCbFiber (s : Workers κ) (w : ThreadId) (f : Option FiberId) : Workers κ :=
  { s with worker := Function.update s.worker w { s.worker w with cbFiber := f } }

@[simp]
theorem setPc_self (s : Workers κ) (w : ThreadId) (pc : Pc κ) :
  ((s.setPc w pc).worker w).pc = pc
  := by
  simp [setPc]

@[simp]
theorem setPc_of_ne (s : Workers κ) {w w' : ThreadId} (h : w' ≠ w) (pc : Pc κ) :
  (s.setPc w pc).worker w' = s.worker w'
  := Function.update_of_ne h _ _

@[simp]
theorem setCbFiber_of_ne (s : Workers κ) {w w' : ThreadId} (h : w' ≠ w) (f : Option FiberId) :
  (s.setCbFiber w f).worker w' = s.worker w'
  := Function.update_of_ne h _ _

/-- An assertion fails. -/
def fail (s : Workers κ) (a : Assertion) : Workers κ :=
  { s with failed := some a }

/-- A thread calls `run`: it constructs its idle fiber. -/
def stepRun (w : ThreadId) (s : Workers κ) : Option (Workers κ) :=
  match (s.worker w).pc with
  | .outside => some { s with
      heap := Function.update s.heap s.next (Fiber.new (some .idle))
      next := s.next + 1
      worker := Function.update s.worker w
        { pc := .head, idleFiber := s.next, cbFiber := none } }
  | _ => none

/-- The scan under the lock. -/
def stepScan (w : ThreadId) (s : Workers κ) : Option (Workers κ) :=
  match (s.worker w).pc with
  | .head =>
      match WbServer.scan s.heap w s.mFibers with
      | none => some (s.setPc w (.dispatch none))
      | some (ft, rest) => some ({ s with mFibers := rest }.setPc w (.dispatch (some ft)))
  | _ => none

/-- The branch for "no task to execute", which leaves the loop once the idle fiber has
ended. -/
def idleOrBreak (w : ThreadId) (s : Workers κ) : Workers κ :=
  if (s.heap (s.worker w).idleFiber).mState = .term then s.setPc w .outside
  else s.setPc w (.count .idle (s.worker w).idleFiber)

/-- The callback `c` is put into `cb_fiber` of the thread `w`. -/
def bindCb (w : ThreadId) (c : Code κ) (s : Workers κ) : Workers κ :=
  match (s.worker w).cbFiber with
  | some f =>
      match (s.heap f).reset (some c) with
      | some fb => (s.set f fb).setPc w (.count .cb f)
      | none => s.fail .reset
  | none => { s with
      heap := Function.update s.heap s.next (Fiber.new (some c))
      next := s.next + 1
      worker := Function.update s.worker w
        { s.worker w with pc := .count .cb s.next, cbFiber := some s.next } }

/-- The choice of the branch. -/
def stepDispatch (w : ThreadId) (s : Workers κ) : Option (Workers κ) :=
  match (s.worker w).pc with
  | .dispatch none => some (s.idleOrBreak w)
  | .dispatch (some ⟨.fiber f, _⟩) =>
      if (s.heap f).mState.Finished then some (s.idleOrBreak w)
      else some (s.setPc w (.count .fiber f))
  | .dispatch (some ⟨.cb c, _⟩) => some (s.bindCb w c)
  | _ => none

/-- Adds one to the counter of a branch. -/
def increment (s : Workers κ) : Branch → Workers κ
  | .idle => { s with mIdleThreadCount := s.mIdleThreadCount + 1 }
  | _ => { s with mActiveThreadCount := s.mActiveThreadCount + 1 }

/-- Takes one from the counter of a branch. -/
def decrement (s : Workers κ) : Branch → Workers κ
  | .idle => { s with mIdleThreadCount := s.mIdleThreadCount - 1 }
  | _ => { s with mActiveThreadCount := s.mActiveThreadCount - 1 }

@[simp]
theorem increment_worker (s : Workers κ) (b : Branch) :
  (s.increment b).worker = s.worker
  := by
  cases b <;> rfl

@[simp]
theorem increment_heap (s : Workers κ) (b : Branch) :
  (s.increment b).heap = s.heap
  := by
  cases b <;> rfl

@[simp]
theorem decrement_worker (s : Workers κ) (b : Branch) :
  (s.decrement b).worker = s.worker
  := by
  cases b <;> rfl

/-- The increment of the counter. -/
def stepCount (w : ThreadId) (s : Workers κ) : Option (Workers κ) :=
  match (s.worker w).pc with
  | .count b f => some ((s.increment b).setPc w (.enter b f))
  | _ => none

/-- The test and the state write of `swap_in`, and the switch into the fiber. -/
def stepSwapIn (w : ThreadId) (s : Workers κ) : Option (Workers κ) :=
  match (s.worker w).pc with
  | .enter b f =>
      match (s.heap f).swapIn with
      | none => some (s.fail .swapIn)
      | some fb =>
          if fb.mCtx.isFinished then some (s.fail .neverReach)
          else some ((s.set f fb).setPc w (.inside b f))
  | _ => none

/-- A call made by the code of a fiber. -/
def stepCall (w : ThreadId) (c : Call κ) (s : Workers κ) : Option (Workers κ) :=
  match (s.worker w).pc with
  | .inside _ f =>
      if (s.heap f).isEmpty then none else some { s with toScheduler := s.toScheduler.call c }
  | _ => none

/-- The state write at the end of a segment. -/
def stepLeave (w : ThreadId) (e : Ending κ) (s : Workers κ) : Option (Workers κ) :=
  match (s.worker w).pc with
  | .inside b f =>
      if (s.heap f).isEmpty && !e.isThrow then none
      else some ((s.set f (e.write (s.heap f)).1).setPc w (.leaving b f (e.write (s.heap f)).2))
  | _ => none

/-- The switch out of the fiber, back into `run`. -/
def stepSwapOut (w : ThreadId) (s : Workers κ) : Option (Workers κ) :=
  match (s.worker w).pc with
  | .leaving b f ctx => some ((s.set f ((s.heap f).swapOut ctx)).setPc w (.back b f))
  | _ => none

/-- The decrement of the counter. -/
def stepUncount (w : ThreadId) (s : Workers κ) : Option (Workers κ) :=
  match (s.worker w).pc with
  | .back b f => some ((s.decrement b).setPc w (.settle b f))
  | _ => none

/-- A fiber that has neither ended nor been found `READY` is put on `HOLD`. -/
def holdUnlessFinished (f : FiberId) (s : Workers κ) : Workers κ :=
  if (s.heap f).mState.Finished then s else s.set f (s.heap f).setHold

@[simp]
theorem holdUnlessFinished_worker (s : Workers κ) (f : FiberId) :
  (s.holdUnlessFinished f).worker = s.worker
  := by
  unfold holdUnlessFinished
  split <;> rfl

@[simp]
theorem holdUnlessFinished_active (s : Workers κ) (f : FiberId) :
  (s.holdUnlessFinished f).mActiveThreadCount = s.mActiveThreadCount
  := by
  unfold holdUnlessFinished
  split <;> rfl

/-- What `run` does with the fiber after the switch back. -/
def stepSettle (w : ThreadId) (s : Workers κ) : Option (Workers κ) :=
  match (s.worker w).pc with
  | .settle .fiber f =>
      if (s.heap f).mState = .ready then some (s.setPc w (.requeue .fiber f))
      else some ((s.holdUnlessFinished f).setPc w .head)
  | .settle .cb f =>
      if (s.heap f).mState = .ready then some (s.setPc w (.requeue .cb f))
      else if (s.heap f).mState.Finished then
        match (s.heap f).reset none with
        | some fb => some ((s.set f fb).setPc w .head)
        | none => some (s.fail .reset)
      else some (((s.set f (s.heap f).setHold).setCbFiber w none).setPc w .head)
  | .settle .idle f => some ((s.holdUnlessFinished f).setPc w .head)
  | _ => none

/-- The fiber is queued again; `cb_fiber` is given up. -/
def stepRequeue (w : ThreadId) (s : Workers κ) : Option (Workers κ) :=
  match (s.worker w).pc with
  | .requeue b f =>
      let s := { s with toScheduler := s.toScheduler.scheduler (some (.fiber f)) (-1) }
      some (if b = .cb then (s.setCbFiber w none).setPc w .head else s.setPc w .head)
  | _ => none

/-! ### What a step can do -/

section Cases

variable {s s' : Workers κ} {w : ThreadId}

/-- A thread enters `run()` and constructs its idle fiber. -/
theorem stepRun_cases (h : s.stepRun w = some s') :
  (s.worker w).pc = .outside ∧
    s' = { s with
      heap := Function.update s.heap s.next (Fiber.new (some .idle))
      next := s.next + 1
      worker := Function.update s.worker w
        { pc := .head, idleFiber := s.next, cbFiber := none } }
  := by
  unfold stepRun at h
  split at h
  case h_1 hpc => exact ⟨hpc, (Option.some.inj h).symm⟩
  case h_2 => cases h

/-- The scan finds nothing, or takes an entry. -/
theorem stepScan_cases (h : s.stepScan w = some s') :
  (s.worker w).pc = .head ∧
    (WbServer.scan s.heap w s.mFibers = none ∧ s' = s.setPc w (.dispatch none) ∨
      ∃ ft rest, WbServer.scan s.heap w s.mFibers = some (ft, rest) ∧
        s' = { s with mFibers := rest }.setPc w (.dispatch (some ft)))
  := by
  unfold stepScan at h
  split at h
  case h_1 hpc =>
    split at h
    case h_1 hscan => exact ⟨hpc, .inl ⟨hscan, (Option.some.inj h).symm⟩⟩
    case h_2 ft rest hscan => exact ⟨hpc, .inr ⟨ft, rest, hscan, (Option.some.inj h).symm⟩⟩
  case h_2 => cases h

/-- The callback is put into the fiber the thread has kept, if this can be emptied, or into a
new one. -/
theorem bindCb_cases (s : Workers κ) (w : ThreadId) (c : Code κ) :
  (∃ f, (s.worker w).cbFiber = some f ∧
    ((s.heap f).mState.Resettable ∧
        s.bindCb w c = (s.set f (Fiber.new (some c))).setPc w (.count .cb f) ∨
      ¬ (s.heap f).mState.Resettable ∧ s.bindCb w c = s.fail .reset)) ∨
  (s.worker w).cbFiber = none ∧
    s.bindCb w c = { s with
      heap := Function.update s.heap s.next (Fiber.new (some c))
      next := s.next + 1
      worker := Function.update s.worker w
        { s.worker w with pc := .count .cb s.next, cbFiber := some s.next } }
  := by
  cases hcb : (s.worker w).cbFiber with
  | none =>
      right
      exact ⟨rfl, by simp only [bindCb, hcb]⟩
  | some f =>
      left
      refine ⟨f, rfl, ?_⟩
      by_cases hreset : (s.heap f).mState.Resettable
      · have hfb : (s.heap f).reset (some c) = some (Fiber.new (some c)) :=
          Fiber.reset_eq_some.mpr ⟨hreset, rfl⟩
        exact .inl ⟨hreset, by simp only [bindCb, hcb, hfb]⟩
      · have hfb : (s.heap f).reset (some c) = none := if_neg hreset
        exact .inr ⟨hreset, by simp only [bindCb, hcb, hfb]⟩

/-- The idle branch is taken without an entry and for an entry of a finished fiber. -/
theorem stepDispatch_cases (h : s.stepDispatch w = some s') :
  ∃ ft, (s.worker w).pc = .dispatch ft ∧
    ((∀ it, ft = some it → ¬ it.Runnable s.heap) ∧ s' = s.idleOrBreak w ∨
      (∃ f thread, ft = some ⟨.fiber f, thread⟩ ∧ ¬ (s.heap f).mState.Finished ∧
        s' = s.setPc w (.count .fiber f)) ∨
      ∃ c thread, ft = some ⟨.cb c, thread⟩ ∧ s' = s.bindCb w c)
  := by
  unfold stepDispatch at h
  split at h
  case h_1 hpc =>
    refine ⟨none, hpc, .inl ⟨?_, (Option.some.inj h).symm⟩⟩
    simp
  case h_2 f thread hpc =>
    refine ⟨_, hpc, ?_⟩
    split at h
    case isTrue hfinished =>
      refine .inl ⟨?_, (Option.some.inj h).symm⟩
      rintro it ⟨⟩
      simpa [FiberAndThread.Runnable] using hfinished
    case isFalse hfinished =>
      exact .inr (.inl ⟨f, thread, rfl, hfinished, (Option.some.inj h).symm⟩)
  case h_3 c thread hpc => exact ⟨_, hpc, .inr (.inr ⟨c, thread, rfl, (Option.some.inj h).symm⟩)⟩
  case h_4 => cases h

/-- The thread is counted as active. -/
theorem stepCount_cases (h : s.stepCount w = some s') :
  ∃ b f, (s.worker w).pc = .count b f ∧ s' = (s.increment b).setPc w (.enter b f)
  := by
  unfold stepCount at h
  split at h
  case h_1 b f hpc => exact ⟨b, f, hpc, (Option.some.inj h).symm⟩
  case h_2 => cases h

/-- The fiber is swapped in, unless an assertion fails. -/
theorem stepSwapIn_cases (h : s.stepSwapIn w = some s') :
  ∃ b f, (s.worker w).pc = .enter b f ∧
    ((s.heap f).mState = .exec ∧ s' = s.fail .swapIn ∨
      s' = s.fail .neverReach ∨
      s' = (s.set f { s.heap f with mState := .exec }).setPc w (.inside b f))
  := by
  unfold stepSwapIn at h
  split at h
  case h_1 b f hpc =>
    refine ⟨b, f, hpc, ?_⟩
    by_cases hexec : (s.heap f).mState = .exec
    · have hnone : (s.heap f).swapIn = none := by simp [Fiber.swapIn, hexec]
      rw [hnone] at h
      exact .inl ⟨hexec, (Option.some.inj h).symm⟩
    · rw [Fiber.swapIn_eq_some.mpr ⟨hexec, rfl⟩] at h
      simp only at h
      split at h
      · exact .inr (.inl (Option.some.inj h).symm)
      · exact .inr (.inr (Option.some.inj h).symm)
  case h_2 => cases h

/-- A task calls the scheduler. -/
theorem stepCall_cases {c : Call κ} (h : s.stepCall w c = some s') :
  (∃ b f, (s.worker w).pc = .inside b f) ∧ s' = { s with toScheduler := s.toScheduler.call c }
  := by
  unfold stepCall at h
  split at h
  case h_1 b f hpc =>
    split at h
    · cases h
    · exact ⟨⟨b, f, hpc⟩, (Option.some.inj h).symm⟩
  case h_2 => cases h

/-- A task ends or yields. -/
theorem stepLeave_cases {e : Ending κ} (h : s.stepLeave w e = some s') :
  ∃ b f, (s.worker w).pc = .inside b f ∧
    s' = (s.set f (e.write (s.heap f)).1).setPc w (.leaving b f (e.write (s.heap f)).2)
  := by
  unfold stepLeave at h
  split at h
  case h_1 b f hpc =>
    split at h
    · cases h
    · exact ⟨b, f, hpc, (Option.some.inj h).symm⟩
  case h_2 => cases h

/-- The fiber is swapped out. -/
theorem stepSwapOut_cases (h : s.stepSwapOut w = some s') :
  ∃ b f ctx, (s.worker w).pc = .leaving b f ctx ∧
    s' = (s.set f ((s.heap f).swapOut ctx)).setPc w (.back b f)
  := by
  unfold stepSwapOut at h
  split at h
  case h_1 b f ctx hpc => exact ⟨b, f, ctx, hpc, (Option.some.inj h).symm⟩
  case h_2 => cases h

/-- The thread is no longer counted as active. -/
theorem stepUncount_cases (h : s.stepUncount w = some s') :
  ∃ b f, (s.worker w).pc = .back b f ∧ s' = (s.decrement b).setPc w (.settle b f)
  := by
  unfold stepUncount at h
  split at h
  case h_1 b f hpc => exact ⟨b, f, hpc, (Option.some.inj h).symm⟩
  case h_2 => cases h

/-- A finished callback fiber can be reset, so that no assertion fails here. -/
theorem stepSettle_cases (h : s.stepSettle w = some s') :
  ∃ b f, (s.worker w).pc = .settle b f ∧
    ((s.heap f).mState = .ready ∧ s' = s.setPc w (.requeue b f) ∨
      b ≠ .cb ∧ s' = (s.holdUnlessFinished f).setPc w .head ∨
      b = .cb ∧ (s.heap f).mState.Finished ∧ s' = (s.set f (Fiber.new none)).setPc w .head ∨
      b = .cb ∧ ¬ (s.heap f).mState.Finished ∧
        s' = ((s.set f (s.heap f).setHold).setCbFiber w none).setPc w .head)
  := by
  unfold stepSettle at h
  split at h
  case h_1 f hpc =>
    refine ⟨_, f, hpc, ?_⟩
    split at h
    case isTrue hready => exact .inl ⟨hready, (Option.some.inj h).symm⟩
    case isFalse => exact .inr (.inl ⟨nofun, (Option.some.inj h).symm⟩)
  case h_2 f hpc =>
    refine ⟨_, f, hpc, ?_⟩
    split at h
    case isTrue hready => exact .inl ⟨hready, (Option.some.inj h).symm⟩
    case isFalse =>
      split at h
      case isTrue hfinished =>
        rw [Fiber.reset_eq_some.mpr ⟨hfinished.resettable, rfl⟩] at h
        exact .inr (.inr (.inl ⟨rfl, hfinished, (Option.some.inj h).symm⟩))
      case isFalse hfinished =>
        exact .inr (.inr (.inr ⟨rfl, hfinished, (Option.some.inj h).symm⟩))
  case h_3 f hpc => exact ⟨_, f, hpc, .inr (.inl ⟨nofun, (Option.some.inj h).symm⟩)⟩
  case h_4 => cases h

/-- A fiber that is ready again is scheduled; behind a callback `cb_fiber` is reset. -/
theorem stepRequeue_cases (h : s.stepRequeue w = some s') :
  ∃ b f t, (s.worker w).pc = .requeue b f ∧
    t = { s with toScheduler := s.toScheduler.scheduler (some (.fiber f)) (-1) } ∧
    (b = .cb ∧ s' = (t.setCbFiber w none).setPc w .head ∨ b ≠ .cb ∧ s' = t.setPc w .head)
  := by
  unfold stepRequeue at h
  split at h
  case h_1 b f hpc =>
    refine ⟨b, f, _, hpc, rfl, ?_⟩
    obtain rfl := Option.some.inj h
    split
    case isTrue hb => exact .inl ⟨hb, rfl⟩
    case isFalse hb => exact .inr ⟨hb, rfl⟩
  case h_2 => cases h

end Cases

/-- The step function, without the test for a failed assertion. -/
def act : Action κ → Workers κ → Option (Workers κ)
  | .run w, s => s.stepRun w
  | .scan w, s => s.stepScan w
  | .dispatch w, s => s.stepDispatch w
  | .count w, s => s.stepCount w
  | .swapIn w, s => s.stepSwapIn w
  | .call w c, s => s.stepCall w c
  | .leave w e, s => s.stepLeave w e
  | .swapOut w, s => s.stepSwapOut w
  | .uncount w, s => s.stepUncount w
  | .settle w, s => s.stepSettle w
  | .requeue w, s => s.stepRequeue w
  | .schedule c, s => some { s with toScheduler := s.toScheduler.call c }
  | .setStoping b, s => some { s with mStoping := b }
  | .setAutoStop b, s => some { s with mAutoStop := b }

/-- A step of the scheduler and its threads. -/
def step (a : Action κ) (s : Workers κ) : Option (Workers κ) :=
  if s.failed.isSome then none else act a s

/-- Before any thread has called `run`: the counters are zero and the entries of the queue
are not null. -/
structure Initial (s : Workers κ) : Prop where
  outside : ∀ w, (s.worker w).pc = .outside
  cbFiber : ∀ w, (s.worker w).cbFiber = none
  failed : s.failed = none
  active : s.mActiveThreadCount = 0
  idle : s.mIdleThreadCount = 0
  valid : ∀ ft ∈ s.mFibers, ft.task.NonNull s.next

/-- The transition system of a scheduler and its threads. -/
def system (κ : Type) : Transition.System (Workers κ) (Action κ) where
  init := Initial
  step := step

/-! ### The other threads -/

section Others

variable {s t : Workers κ} {w w' : ThreadId}

theorem idleOrBreak_worker_of_ne (s : Workers κ) (h : w' ≠ w) :
  (s.idleOrBreak w).worker w' = s.worker w'
  := by
  unfold idleOrBreak
  split
  · exact setPc_of_ne s h _
  · exact setPc_of_ne s h _

/-- Binding a callback does not change other threads. -/
theorem bindCb_worker_of_ne (s : Workers κ) (h : w' ≠ w) (c : Code κ) :
  (s.bindCb w c).worker w' = s.worker w'
  := by
  obtain ⟨f, -, ⟨-, heq⟩ | ⟨-, heq⟩⟩ | ⟨-, heq⟩ := s.bindCb_cases w c <;> rw [heq]
  · exact setPc_of_ne _ h _
  · rfl
  · exact Function.update_of_ne h _ _

/-- A step of a thread leaves the other threads alone. -/
theorem act_worker_of_ne {a : Action κ} (hact : act a s = some t) (ha : a.worker? ≠ some w) :
  t.worker w = s.worker w
  := by
  have hne {w' : ThreadId} (hw' : a.worker? = some w') : w ≠ w' := by
    rintro rfl
    exact ha hw'
  cases a with
  | run w' =>
      obtain ⟨-, rfl⟩ := stepRun_cases hact
      exact Function.update_of_ne (hne rfl) _ _
  | scan w' =>
      obtain ⟨-, ⟨-, rfl⟩ | ⟨ft, rest, -, rfl⟩⟩ := stepScan_cases hact <;>
        exact setPc_of_ne _ (hne rfl) _
  | dispatch w' =>
      obtain ⟨ft, -, ⟨-, rfl⟩ | ⟨f, thread, -, -, rfl⟩ | ⟨c, thread, -, rfl⟩⟩ :=
        stepDispatch_cases hact
      · exact idleOrBreak_worker_of_ne s (hne rfl)
      · exact setPc_of_ne _ (hne rfl) _
      · exact bindCb_worker_of_ne s (hne rfl) c
  | count w' =>
      obtain ⟨b, f, -, rfl⟩ := stepCount_cases hact
      rw [setPc_of_ne _ (hne rfl), increment_worker]
  | swapIn w' =>
      obtain ⟨b, f, -, ⟨-, rfl⟩ | rfl | rfl⟩ := stepSwapIn_cases hact
      · rfl
      · rfl
      · exact setPc_of_ne _ (hne rfl) _
  | call w' c =>
      obtain ⟨-, rfl⟩ := stepCall_cases hact
      rfl
  | leave w' e =>
      obtain ⟨b, f, -, rfl⟩ := stepLeave_cases hact
      exact setPc_of_ne _ (hne rfl) _
  | swapOut w' =>
      obtain ⟨b, f, ctx, -, rfl⟩ := stepSwapOut_cases hact
      exact setPc_of_ne _ (hne rfl) _
  | uncount w' =>
      obtain ⟨b, f, -, rfl⟩ := stepUncount_cases hact
      rw [setPc_of_ne _ (hne rfl), decrement_worker]
  | settle w' =>
      obtain ⟨b, f, -, hcases⟩ := stepSettle_cases hact
      rcases hcases with ⟨-, rfl⟩ | ⟨-, rfl⟩ | ⟨-, -, rfl⟩ | ⟨-, -, rfl⟩
      · exact setPc_of_ne _ (hne rfl) _
      · rw [setPc_of_ne _ (hne rfl), holdUnlessFinished_worker]
      · exact setPc_of_ne _ (hne rfl) _
      · rw [setPc_of_ne _ (hne rfl), setCbFiber_of_ne _ (hne rfl)]
        rfl
  | requeue w' =>
      obtain ⟨b, f, u, -, rfl, ⟨-, rfl⟩ | ⟨-, rfl⟩⟩ := stepRequeue_cases hact
      · rw [setPc_of_ne _ (hne rfl), setCbFiber_of_ne _ (hne rfl)]
      · exact setPc_of_ne _ (hne rfl) _
  | schedule c =>
      obtain rfl := Option.some.inj hact
      rfl
  | setStoping b =>
      obtain rfl := Option.some.inj hact
      rfl
  | setAutoStop b =>
      obtain rfl := Option.some.inj hact
      rfl

/-- A run of other threads leaves a thread where it was. -/
theorem exec_worker_of_ne {as : List (Action κ)} (hexec : (system κ).exec as s = some t)
    (has : ∀ a ∈ as, a.worker? ≠ some w) :
  t.worker w = s.worker w
  := by
  induction as generalizing s with
  | nil =>
      obtain rfl := Option.some.inj hexec
      rfl
  | cons a as ih =>
      obtain ⟨ha, has⟩ := List.forall_mem_cons.mp has
      obtain ⟨r, hr, hexec⟩ := Option.bind_eq_some_iff.mp hexec
      simp only [system, step] at hr
      split at hr
      · cases hr
      · rw [ih hexec has, act_worker_of_ne hr ha]

end Others

/-- Nothing is queued and no thread is in `run`. -/
def empty : Workers ℕ where
  heap _ := Fiber.new (some .idle)
  next := 0
  mFibers := []
  mActiveThreadCount := 0
  mIdleThreadCount := 0
  mStoping := false
  mAutoStop := false
  worker _ := { pc := .outside, idleFiber := 0, cbFiber := none }
  failed := none

theorem empty_initial :
  Initial empty
  where
  outside _ := rfl
  cbFiber _ := rfl
  failed := rfl
  active := rfl
  idle := rfl
  valid _ h := nomatch h

end Workers

end WbServer
