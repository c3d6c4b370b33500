import WbServer.Fiber

/-!
# The queue of the scheduler

`m_fibers` holds fibers and callbacks, each with the id of the thread that may run it, or
`-1`. `Scheduler::scheduler` appends an entry under the lock, and the scan at the top of
`Scheduler::run` takes out, under the lock, the first entry it does not pass over.

`Scheduler` collects the members of the class that the run loop and `stopping` read, and
the heap of fibers the entries point into. `tickel` only logs and is left out, and with it
`need_tickle` and `tickle_me`.
-/

namespace WbServer

/-- What a queue entry holds: `fiber` or `cb` of `FiberAndThread`. The constructors set
exactly one of the two. -/
inductive Task (κ : Type) where
  | fiber (f : FiberId)
  | cb (c : Code κ)
  deriving DecidableEq

/-- `FiberAndThread`. -/
structure FiberAndThread (κ : Type) where
  task : Task κ
  thread : ℤ
  deriving DecidableEq

/-- The members of `Scheduler` and the heap: the fibers with an index below `next` have
been constructed. -/
structure Scheduler (κ : Type) where
  heap : FiberId → Fiber κ
  next : FiberId
  mFibers : List (FiberAndThread κ)
  mActiveThreadCount : ℕ
  mIdleThreadCount : ℕ
  mStoping : Bool
  mAutoStop : Bool

variable {κ : Type}

/-- A task is set if it is not a null pointer. -/
def Task.NonNull (next : FiberId) : Task κ → Prop
  | .fiber f => f < next
  | .cb _ => True

instance (next : FiberId) : (t : Task κ) → Decidable (t.NonNull next)
  | .fiber f => inferInstanceAs (Decidable (f < next))
  | .cb _ => inferInstanceAs (Decidable True)

/-- A task that is not null stays so when fibers are constructed. -/
theorem Task.NonNull.mono {t : Task κ} {n n' : FiberId} (h : t.NonNull n) (hn : n ≤ n') :
  t.NonNull n'
  := by
  cases t with
  | fiber f => apply Nat.lt_of_lt_of_le h hn
  | cb c => trivial

/-- The callback of an entry that holds one. -/
def FiberAndThread.callback? (ft : FiberAndThread κ) : Option (Code κ) :=
  match ft.task with
  | .fiber _ => none
  | .cb c => some c

/-- The callbacks in a queue, in the order of their entries. -/
def callbacks (fibers : List (FiberAndThread κ)) : List (Code κ) :=
  fibers.filterMap FiberAndThread.callback?

@[simp]
theorem callbacks_nil :
  callbacks ([] : List (FiberAndThread κ)) = []
  := rfl

@[simp]
theorem callbacks_append (fs gs : List (FiberAndThread κ)) :
  callbacks (fs ++ gs) = callbacks fs ++ callbacks gs
  := List.filterMap_append

@[simp]
theorem callbacks_cons_cb (c : Code κ) (t : ℤ) (fs : List (FiberAndThread κ)) :
  callbacks (⟨.cb c, t⟩ :: fs) = c :: callbacks fs
  := rfl

@[simp]
theorem callbacks_cons_fiber (f : FiberId) (t : ℤ) (fs : List (FiberAndThread κ)) :
  callbacks (⟨.fiber f, t⟩ :: fs) = callbacks fs
  := rfl

namespace Scheduler

/-- `Scheduler::scheduler_nolock`. The argument `fc` is `none` for an empty function. -/
def schedulerNolock (next : FiberId) (fibers : List (FiberAndThread κ))
    (fc : Option (Task κ)) (thread : ℤ) : List (FiberAndThread κ) :=
  match fc with
  | none => fibers
  | some t => if t.NonNull next then fibers ++ [⟨t, thread⟩] else fibers

/-- `Scheduler::scheduler`. -/
def scheduler (s : Scheduler κ) (fc : Option (Task κ)) (thread : ℤ) : Scheduler κ :=
  { s with mFibers := schedulerNolock s.next s.mFibers fc thread }

/-- `Scheduler::stopping`. -/
def stopping (s : Scheduler κ) : Bool :=
  s.mAutoStop && s.mStoping && s.mFibers.isEmpty && s.mActiveThreadCount == 0

/-- What a call of `scheduler_nolock` appends. -/
def entries (next : FiberId) (fc : Option (Task κ)) (thread : ℤ) :
    List (FiberAndThread κ) :=
  schedulerNolock next [] fc thread

/-- `schedulerNolock` appends at most one entry. -/
theorem schedulerNolock_eq (next : FiberId) (fibers : List (FiberAndThread κ))
    (fc : Option (Task κ)) (thread : ℤ) :
  schedulerNolock next fibers fc thread = fibers ++ entries next fc thread
  := by
  cases fc with
  | none => simp [schedulerNolock, entries]
  | some t =>
      simp only [schedulerNolock, entries]
      split
      · simp
      · simp

theorem mem_entries {next : FiberId} {fc : Option (Task κ)} {thread : ℤ}
    {ft : FiberAndThread κ} (h : ft ∈ entries next fc thread) :
  fc = some ft.task ∧ ft.thread = thread ∧ ft.task.NonNull next
  := by
  cases fc with
  | none => simp [schedulerNolock, entries] at h
  | some t =>
      simp only [schedulerNolock, entries] at h
      split at h
      case isTrue ht =>
        obtain rfl : ft = ⟨t, thread⟩ := by simpa using h
        exact ⟨rfl, rfl, ht⟩
      case isFalse => simp at h

end Scheduler

/-! ### The scan -/

/-- The scan of thread `tid` passes over an entry pinned to another thread and over a
fiber that is executing. -/
def FiberAndThread.PassedOver (heap : FiberId → Fiber κ) (tid : ℤ) (it : FiberAndThread κ) :
    Prop :=
  (it.thread ≠ -1 ∧ it.thread ≠ tid) ∨
    match it.task with
    | .fiber f => (heap f).mState = .exec
    | .cb _ => False

instance (heap : FiberId → Fiber κ) (tid : ℤ) :
    (it : FiberAndThread κ) → Decidable (it.PassedOver heap tid)
  | ⟨.fiber f, t⟩ =>
      inferInstanceAs (Decidable ((t ≠ -1 ∧ t ≠ tid) ∨ (heap f).mState = .exec))
  | ⟨.cb _, t⟩ => inferInstanceAs (Decidable ((t ≠ -1 ∧ t ≠ tid) ∨ False))

/-- The scan of `m_fibers` in `Scheduler::run`: the entry taken out and the entries that
stay. -/
def scan (heap : FiberId → Fiber κ) (tid : ℤ) :
    List (FiberAndThread κ) → Option (FiberAndThread κ × List (FiberAndThread κ))
  | [] => none
  | it :: fs =>
      if it.PassedOver heap tid then (scan heap tid fs).map fun p => (p.1, it :: p.2)
      else some (it, fs)

/-- The scan finds nothing if it passes over all entries. -/
theorem scan_eq_none {heap : FiberId → Fiber κ} {tid : ℤ} {fs : List (FiberAndThread κ)} :
  scan heap tid fs = none ↔ ∀ it ∈ fs, it.PassedOver heap tid
  := by
  induction fs with
  | nil => simp [scan]
  | cons it fs ih =>
      simp only [scan]
      split
      case isTrue h => simp [h, ih]
      case isFalse h => simp [h]

/-- The scan takes the first entry that it does not pass over. -/
theorem scan_eq_some {heap : FiberId → Fiber κ} {tid : ℤ} {fs rest : List (FiberAndThread κ)}
    {ft : FiberAndThread κ} (h : scan heap tid fs = some (ft, rest)) :
  ∃ pre post, fs = pre ++ ft :: post ∧ rest = pre ++ post ∧
    (∀ it ∈ pre, it.PassedOver heap tid) ∧ ¬ ft.PassedOver heap tid
  := by
  induction fs generalizing rest with
  | nil => simp [scan] at h
  | cons it fs ih =>
      simp only [scan] at h
      split at h
      case isTrue hit =>
        obtain ⟨⟨ft', rest'⟩, h', heq⟩ := Option.map_eq_some_iff.mp h
        obtain ⟨rfl, rfl⟩ := Prod.mk.inj heq
        obtain ⟨pre, post, rfl, rfl, hpre, hft⟩ := ih h'
        use it :: pre, post
        refine ⟨rfl, rfl, ?_, hft⟩
        simpa [hit] using hpre
      case isFalse hit =>
        obtain ⟨rfl, rfl⟩ := Prod.mk.inj (Option.some.inj h)
        use [], fs
        simp [hit]

/-- An entry at the head that is not passed over is taken. -/
theorem scan_cons {heap : FiberId → Fiber κ} {tid : ℤ} {it : FiberAndThread κ}
    (h : ¬ it.PassedOver heap tid) (fs : List (FiberAndThread κ)) :
  scan heap tid (it :: fs) = some (it, fs)
  := by
  simp [scan, h]

end WbServer
