import WbServer.Scheduler.Queue

/-!
# The run loop of one worker

`loop` is the loop of `Scheduler::run` as one worker executes it while no other thread
touches the scheduler. An iteration takes an entry from the queue and switches into a
fiber, and the fiber executes one segment: it calls `scheduler` a number of times and then
yields, returns or throws, which switches back into the loop.

What the tasks do is a `Behaviour`, which a run receives anew for every iteration. A
property of all runs is therefore a property of all tasks, also of those that read and
write state of their own. The state keeps, beside the variables of `run`, the trace of the
calls of `scheduler`, of the callbacks started and of the segments executed.
-/

namespace WbServer

variable {κ : Type}

/-! ### Segments -/

/-- A call made by a task: `scheduler(fc, thread)`, or the construction of a fiber. -/
inductive Call (κ : Type) where
  | scheduler (fc : Option (Task κ)) (thread : ℤ)
  | newFiber (cb : Option (Code κ))
  deriving DecidableEq

/-- How a segment ends; a yield leaves `rest` to execute. -/
inductive Ending (κ : Type) where
  | yieldToReady (rest : Code κ)
  | yeidToHold (rest : Code κ)
  | ret
  | throw
  deriving DecidableEq

/-- What a fiber does between two switches. -/
structure Segment (κ : Type) where
  calls : List (Call κ)
  ending : Ending κ
  deriving DecidableEq

/-- The segment that is executed from a point of the code, in the fiber that
`Fiber::GetThis()` returns. -/
abbrev Behaviour (κ : Type) : Type := FiberId → Code κ → Segment κ

/-- The fiber after a segment that ends in the given way. -/
def Ending.apply (e : Ending κ) (f : Fiber κ) : Fiber κ :=
  match e with
  | .yieldToReady rest => f.yieldToReady rest
  | .yeidToHold rest => f.yeidToHold rest
  | .ret => f.mainFuncReturn
  | .throw => f.mainFuncThrow

/-- `Scheduler::idle` of the base class, which only logs. -/
def Scheduler.idle : Segment κ where
  calls := []
  ending := .ret

/-- Behaviours of a scheduler that does not override `idle`. -/
def BaseIdle (behave : Behaviour κ) : Prop :=
  ∀ f, behave f .idle = Scheduler.idle

/-! ### The state of the loop -/

/-- A segment as it is executed: the fiber `GetThis()` returns, the fiber whose context
executes it, the callback of the fiber `GetThis()` returns, and the code. -/
structure Execution (κ : Type) where
  this : FiberId
  host : FiberId
  cb : Option (Code κ)
  code : Code κ
  deriving DecidableEq

/-- The entries of the trace. -/
inductive Event (κ : Type) where
  | scheduler (fc : Option (Task κ)) (thread : ℤ)
  | start (c : Code κ)
  | segment (e : Execution κ)
  deriving DecidableEq

/-- The scheduler, the thread-local `t_fiber` of `fiber.cc` and of `scheduler.cc`, the
variables `idle_fiber` and `cb_fiber` of `run`, and the trace. -/
structure RunState (κ : Type) extends Scheduler κ where
  tFiber : FiberId
  mainFiber : FiberId
  idleFiber : FiberId
  cbFiber : Option FiberId
  trace : List (Event κ)

namespace RunState

/-- Stores a fiber. -/
def set (s : RunState κ) (f : FiberId) (fb : Fiber κ) : RunState κ :=
  { s with heap := Function.update s.heap f fb }

/-- `Fiber::SetThis`. -/
def setThis (s : RunState κ) (f : FiberId) : RunState κ :=
  { s with tFiber := f }

/-- Assigns `cb_fiber`. -/
def setCbFiber (s : RunState κ) (f : Option FiberId) : RunState κ :=
  { s with cbFiber := f }

/-- Appends to the trace. -/
def log (s : RunState κ) (e : Event κ) : RunState κ :=
  { s with trace := s.trace ++ [e] }

/-- A call of `Scheduler::scheduler`. -/
def schedule (s : RunState κ) (fc : Option (Task κ)) (thread : ℤ) : RunState κ :=
  { s with
    toScheduler := s.toScheduler.scheduler fc thread
    trace := s.trace ++ [.scheduler fc thread] }

/-- `new Fiber(cb)`. -/
def newFiber (s : RunState κ) (cb : Option (Code κ)) : RunState κ :=
  { s with heap := Function.update s.heap s.next (Fiber.new cb), next := s.next + 1 }

/-- A call made by a task. -/
def call (s : RunState κ) : Call κ → RunState κ
  | .scheduler fc thread => s.schedule fc thread
  | .newFiber cb => s.newFiber cb

/-- The end of a segment: the current fiber is left and the main fiber of the scheduler
becomes the current one. -/
def leave (s : RunState κ) (e : Ending κ) : RunState κ :=
  (s.set s.tFiber (e.apply (s.heap s.tFiber))).setThis s.mainFiber

/-- The fiber `host` executes the segment at `c`. -/
def segment (behave : Behaviour κ) (host : FiberId) (c : Code κ) (s : RunState κ) :
    RunState κ :=
  let seg := behave s.tFiber c
  let s := s.log (.segment ⟨s.tFiber, host, (s.heap s.tFiber).mCb, c⟩)
  (seg.calls.foldl call s).leave seg.ending

/-- The context of `f` is resumed and executes until it switches back. An empty callback
throws `std::bad_function_call`, which `MainFunc` catches; a context behind the end of
`MainFunc` runs into the never-reach assertion. -/
def resume (behave : Behaviour κ) (f : FiberId) (s : RunState κ) : Option (RunState κ) :=
  match (s.heap f).mCtx with
  | .entry =>
      match (s.heap f).mCb with
      | some c => some (s.segment behave f c)
      | none => some (s.leave .throw)
  | .suspended c => some (s.segment behave f c)
  | .finished => none

/-- `swap_in` of the fiber `f`, up to the return of its `swapcontext`. -/
def swapIn (behave : Behaviour κ) (f : FiberId) (s : RunState κ) : Option (RunState κ) :=
  (s.heap f).swapIn.bind fun fb => resume behave f ((s.set f fb).setThis f)

/-- What a call of a task leaves alone: the variables of the loop and the counters. -/
@[simp]
theorem call_tFiber (s : RunState κ) (c : Call κ) :
  (s.call c).tFiber = s.tFiber
  := by
  cases c <;> rfl

/-- The calls of a task do not change the running fiber. -/
@[simp]
theorem calls_tFiber (calls : List (Call κ)) (s : RunState κ) :
  (calls.foldl call s).tFiber = s.tFiber
  := by
  induction calls generalizing s with
  | nil => rfl
  | cons c calls ih => rw [List.foldl_cons, ih, call_tFiber]

/-! ### The branches of an iteration -/

/-- `swap_in` of a task, counted in `m_active_thread_count`. -/
def swapInActive (behave : Behaviour κ) (f : FiberId) (s : RunState κ) :
    Option (RunState κ) :=
  (swapIn behave f { s with mActiveThreadCount := s.mActiveThreadCount + 1 }).map
    fun s => { s with mActiveThreadCount := s.mActiveThreadCount - 1 }

/-- `swap_in` of the idle fiber, counted in `m_idle_thread_count`. -/
def swapInIdle (behave : Behaviour κ) (f : FiberId) (s : RunState κ) : Option (RunState κ) :=
  (swapIn behave f { s with mIdleThreadCount := s.mIdleThreadCount + 1 }).map
    fun s => { s with mIdleThreadCount := s.mIdleThreadCount - 1 }

/-- A fiber that has neither ended nor been queued again is put on `HOLD`. -/
def holdUnlessFinished (f : FiberId) (s : RunState κ) : RunState κ :=
  if (s.heap f).mState.Finished then s else s.set f (s.heap f).setHold

/-- What is done with a fiber entry after the switch back. -/
def settleFiber (f : FiberId) (s : RunState κ) : RunState κ :=
  if (s.heap f).mState = .ready then s.schedule (some (.fiber f)) (-1)
  else s.holdUnlessFinished f

/-- The branch of a fiber that is not finished. -/
def runFiber (behave : Behaviour κ) (f : FiberId) (s : RunState κ) : Option (RunState κ) :=
  (s.swapInActive behave f).map (settleFiber f)

/-- The callback `c` is put into `cb_fiber`, which is reset or constructed. -/
def bindCb (c : Code κ) (s : RunState κ) : Option (FiberId × RunState κ) :=
  match s.cbFiber with
  | some f => ((s.heap f).reset (some c)).map fun fb => (f, s.set f fb)
  | none => some (s.next, (s.newFiber (some c)).setCbFiber (some s.next))

/-- What is done with `cb_fiber` after the switch back. -/
def settleCb (f : FiberId) (s : RunState κ) : Option (RunState κ) :=
  if (s.heap f).mState = .ready then
    some ((s.schedule (some (.fiber f)) (-1)).setCbFiber none)
  else if (s.heap f).mState.Finished then
    ((s.heap f).reset none).map (s.set f)
  else
    some ((s.set f (s.heap f).setHold).setCbFiber none)

/-- The branch of a callback. -/
def runCb (behave : Behaviour κ) (c : Code κ) (s : RunState κ) : Option (RunState κ) :=
  (bindCb c (s.log (.start c))).bind fun p => (p.2.swapInActive behave p.1).bind (settleCb p.1)

/-- The branch without a task to execute, when the idle fiber has not ended. -/
def runIdle (behave : Behaviour κ) (s : RunState κ) : Option (RunState κ) :=
  (s.swapInIdle behave s.idleFiber).map (holdUnlessFinished s.idleFiber)

end RunState

/-! ### The loop -/

/-- What has become of `run`: it is in its loop, it has returned, or an assertion has
failed. -/
inductive Outcome (κ : Type) where
  | running (s : RunState κ)
  | returned (s : RunState κ)
  | aborted

/-- The outcome of a branch that stays in the loop. -/
def Outcome.ofOption : Option (RunState κ) → Outcome κ
  | some s => .running s
  | none => .aborted

theorem Outcome.ofOption_eq_running {o : Option (RunState κ)} {s : RunState κ} :
  ofOption o = .running s ↔ o = some s
  := by
  cases o <;> simp [ofOption]

theorem Outcome.ofOption_ne_returned (o : Option (RunState κ)) (s : RunState κ) :
  ofOption o ≠ .returned s
  := by
  cases o <;> simp [ofOption]

namespace RunState

/-- The last branch of the loop, which leaves the loop once the idle fiber has ended. -/
def idleOrBreak (behave : Behaviour κ) (s : RunState κ) : Outcome κ :=
  if (s.heap s.idleFiber).mState = .term then .returned s else .ofOption (s.runIdle behave)

/-- One iteration of the loop of thread `tid`. -/
def iteration (tid : ℤ) (behave : Behaviour κ) (s : RunState κ) : Outcome κ :=
  match scan s.heap tid s.mFibers with
  | none => s.idleOrBreak behave
  | some (⟨.fiber f, _⟩, rest) =>
      let s := { s with mFibers := rest }
      if (s.heap f).mState.Finished then s.idleOrBreak behave
      else .ofOption (s.runFiber behave f)
  | some (⟨.cb c, _⟩, rest) => .ofOption ({ s with mFibers := rest }.runCb behave c)

/-- The loop, with one behaviour of the tasks for every iteration. -/
def loop (tid : ℤ) : List (Behaviour κ) → RunState κ → Outcome κ
  | [], s => .running s
  | behave :: bs, s =>
      match s.iteration tid behave with
      | .running s' => loop tid bs s'
      | .returned s' => .returned s'
      | .aborted => .aborted

/-- The states at the head of the loop. -/
def heads (tid : ℤ) : List (Behaviour κ) → RunState κ → List (RunState κ)
  | [], s => [s]
  | behave :: bs, s =>
      s :: match s.iteration tid behave with
        | .running s' => heads tid bs s'
        | .returned _ => []
        | .aborted => []

end RunState

/-- The variables of `run` before the loop; `main` is the main fiber of the thread. -/
def Scheduler.enter (s : Scheduler κ) (main : FiberId) : RunState κ where
  toScheduler :=
    { s with
      heap := Function.update s.heap s.next (Fiber.new (some .idle))
      next := s.next + 1 }
  tFiber := main
  mainFiber := main
  idleFiber := s.next
  cbFiber := none
  trace := []

/-- `Scheduler::run` on thread `tid` with main fiber `main`. -/
def Scheduler.run (s : Scheduler κ) (tid : ℤ) (main : FiberId) (bs : List (Behaviour κ)) :
    Outcome κ :=
  (s.enter main).loop tid bs

end WbServer
