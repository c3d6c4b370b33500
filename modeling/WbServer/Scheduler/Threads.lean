import WbServer.Fiber

/-!
# The threads of a scheduler

The constructor computes `m_thread_count`, and `start` stores that many threads in
`m_threads`, which nothing ever gives a size. The first access is out of bounds, unless the
scheduler has no threads of its own: `ThreadPool.sound_iff` says that the sizes are as they
should be for `Scheduler(1, true)` alone.
-/

namespace WbServer

/-- What of a `Scheduler` tells about its threads: `m_threads` by the ids of the threads, and
`m_root_fiber` by its state. `tScheduler` tells whether `t_scheduler` of the caller's thread
is this scheduler. -/
structure ThreadPool where
  mThreads : List (Option ℤ)
  mThreadId : List ℤ
  mThreadCount : ℕ
  mRootFiber : Option Fiber.State
  mRootThread : ℤ
  mStoping : Bool
  mAutoStop : Bool
  tScheduler : Bool

namespace ThreadPool

/-- An assertion that fails, or an access out of bounds. -/
inductive Failure where
  /-- `threads > 0` in the constructor. -/
  | positive
  /-- `m_threads[i]` in `start`. -/
  | outOfBounds (i : ℕ)
  /-- `m_threads.empty()` in `start`. -/
  | threads
  /-- `GetThis() == this` in `stop`. -/
  | this
  /-- `GetThis() != this` in `stop`. -/
  | notThis
  deriving DecidableEq

/-! ### The code -/

/-- The constructor, in a thread `id` without a scheduler. -/
def construct (threads : ℕ) (useCaller : Bool) (id : ℤ) : Except Failure ThreadPool :=
  if threads = 0 then .error .positive
  else if useCaller then
    .ok { mThreads := [], mThreadId := [id], mThreadCount := threads - 1,
          mRootFiber := some .init, mRootThread := id, mStoping := true, mAutoStop := false,
          tScheduler := true }
  else
    .ok { mThreads := [], mThreadId := [], mThreadCount := threads,
          mRootFiber := none, mRootThread := -1, mStoping := true, mAutoStop := false,
          tScheduler := false }

/-- The body of the loop in `start`; `ids` are the ids of the new threads. -/
def startThread (ids : ℕ → ℤ) (s : ThreadPool) (i : ℕ) : Except Failure ThreadPool :=
  if i < s.mThreads.length then
    .ok { s with mThreads := s.mThreads.set i (some (ids i)), mThreadId := s.mThreadId ++ [ids i] }
  else .error (.outOfBounds i)

/-- `m_root_fiber->call()`, if there is a root fiber: it executes `run` in the thread of the
caller, and returns in the state `root`. -/
def callRootFiber (root : Fiber.State) (s : ThreadPool) : ThreadPool :=
  match s.mRootFiber with
  | some _ => { s with mRootFiber := some root, tScheduler := true }
  | none => s

/-- `Scheduler::start`. -/
def start (ids : ℕ → ℤ) (root : Fiber.State) (s : ThreadPool) : Except Failure ThreadPool :=
  if !s.mStoping then .ok s
  else if s.mThreads = [] then do
    let s ← (List.range s.mThreadCount).foldlM (startThread ids) { s with mStoping := false }
    .ok (s.callRootFiber root)
  else .error .threads

/-- The end of `Scheduler::stop`. -/
def stopRest (s : ThreadPool) : Except Failure ThreadPool :=
  if s.mRootThread ≠ -1 then
    if s.tScheduler then .ok { s with mStoping := true } else .error .this
  else
    if s.tScheduler then .error .notThis else .ok { s with mStoping := true }

/-- `Scheduler::stop`; `stopping` is what `stopping()` tells. -/
def stop (stopping : Bool) (s : ThreadPool) : Except Failure ThreadPool :=
  let s := { s with mAutoStop := true }
  if s.mThreadCount = 0 ∧ (s.mRootFiber = some .term ∨ s.mRootFiber = some .init) then
    let s := { s with mStoping := true }
    if stopping then .ok s else s.stopRest
  else s.stopRest

/-- A call of `start` or `stop`. -/
inductive Op where
  | start (ids : ℕ → ℤ) (root : Fiber.State)
  | stop (stopping : Bool)

/-- What a call does. -/
def step (s : ThreadPool) : Op → Except Failure ThreadPool
  | .start ids root => s.start ids root
  | .stop stopping => s.stop stopping

/-! ### Sizes -/

/-- Behind the first `start` there are `m_thread_count` threads, and `m_thread_id` has an id
for each of them and for the thread of the caller; and no later `start` finds threads. -/
structure Sound (threads : ℕ) (useCaller : Bool) : Prop where
  started : ∀ id ids root, ∃ s s', construct threads useCaller id = .ok s ∧
    s.start ids root = .ok s' ∧
    s'.mThreads = (List.range s'.mThreadCount).map (fun i => some (ids i)) ∧
    s'.mThreadId = (if useCaller then [id] else []) ++ (List.range s'.mThreadCount).map ids ∧
    s'.mThreadId.length = threads
  restarted : ∀ id (ops : List Op),
    (construct threads useCaller id).bind (ops.foldlM step) ≠ .error .threads

/-- The scheduler has no threads of its own. -/
def Alone (s : ThreadPool) : Prop :=
  s.mThreads = [] ∧ s.mThreadCount = 0

theorem Alone.callRootFiber {s : ThreadPool} (h : s.Alone) (root : Fiber.State) :
  (s.callRootFiber root).Alone
  := by
  unfold ThreadPool.callRootFiber
  split <;> exact h

/-- `start` without other threads calls the root fiber at most. -/
theorem Alone.start {s : ThreadPool} (h : s.Alone) (ids : ℕ → ℤ) (root : Fiber.State) :
  s.start ids root = .ok s ∨
    s.start ids root = .ok ({ s with mStoping := false }.callRootFiber root)
  := by
  obtain ⟨hthreads, hcount⟩ := h
  unfold ThreadPool.start
  cases s.mStoping with
  | false => exact .inl rfl
  | true =>
      right
      rw [hcount]
      simp [hthreads, bind, Except.bind, pure, Except.pure]

theorem stopRest_cases (s : ThreadPool) :
  s.stopRest = .ok { s with mStoping := true } ∨ s.stopRest = .error .this ∨
    s.stopRest = .error .notThis
  := by
  unfold stopRest
  split <;> split <;> simp

/-- `start` and `stop` give it none, and no `start` finds threads. -/
theorem Alone.step {s : ThreadPool} (h : s.Alone) (op : Op) :
  (∃ s', s.step op = .ok s' ∧ s'.Alone) ∨ ∃ e, s.step op = .error e ∧ e ≠ .threads
  := by
  have hrest : ∀ s : ThreadPool, s.Alone →
      (∃ s', s.stopRest = .ok s' ∧ s'.Alone) ∨ ∃ e, s.stopRest = .error e ∧ e ≠ .threads := by
    intro s h
    obtain hs | hs | hs := s.stopRest_cases
    · exact .inl ⟨_, hs, h⟩
    · exact .inr ⟨_, hs, by simp⟩
    · exact .inr ⟨_, hs, by simp⟩
  cases op with
  | start ids root =>
      left
      obtain hs | hs := h.start ids root
      · exact ⟨_, hs, h⟩
      · have hstoping : ThreadPool.Alone { s with mStoping := false } := h
        exact ⟨_, hs, hstoping.callRootFiber root⟩
  | stop stopping =>
      simp only [ThreadPool.step, ThreadPool.stop]
      split
      · cases stopping with
        | true => exact .inl ⟨_, rfl, h⟩
        | false => exact hrest { s with mAutoStop := true, mStoping := true } h
      · exact hrest { s with mAutoStop := true } h

/-- No sequence of calls fails because of other threads. -/
theorem Alone.foldlM {s : ThreadPool} (h : s.Alone) (ops : List Op) :
  ops.foldlM ThreadPool.step s ≠ .error .threads
  := by
  induction ops generalizing s with
  | nil => simp [pure, Except.pure]
  | cons op ops ih =>
      rw [List.foldlM_cons]
      obtain ⟨s', hs', halone⟩ | ⟨e, he, hne⟩ := h.step op
      · rw [hs']
        apply ih halone
      · rw [he]
        simpa [bind, Except.bind] using hne

/-- The first thread of its own is stored out of bounds. -/
theorem start_outOfBounds {s : ThreadPool} (hstoping : s.mStoping = true)
    (hthreads : s.mThreads = []) (hcount : 0 < s.mThreadCount) (ids : ℕ → ℤ)
    (root : Fiber.State) :
  s.start ids root = .error (.outOfBounds 0)
  := by
  obtain ⟨n, hn⟩ := Nat.exists_eq_add_of_le' hcount
  simp only [start, hstoping, hthreads, hn, List.range_succ_eq_map, List.foldlM_cons]
  simp [startThread, bind, Except.bind]

/-- The accesses, sizes and assertions of `start` are as they should be if and only if the
scheduler has one thread, which is that of its caller. -/
theorem sound_iff (threads : ℕ) (useCaller : Bool) :
  Sound threads useCaller ↔ threads = 1 ∧ useCaller = true
  := by
  constructor
  · intro h
    obtain ⟨s, s', hs, hstart, -, -, -⟩ := h.started 0 (fun _ => 0) .init
    have hcount : s.mStoping = true → s.mThreads = [] → s.mThreadCount = 0 := by
      intro hstoping hthreads
      by_contra hpos
      rw [start_outOfBounds hstoping hthreads (Nat.pos_of_ne_zero hpos)] at hstart
      cases hstart
    unfold construct at hs
    split at hs
    case isTrue => cases hs
    case isFalse hne =>
      split at hs
      case isTrue huse =>
        obtain rfl := Except.ok.inj hs
        have hzero : threads - 1 = 0 := hcount rfl rfl
        exact ⟨by omega, huse⟩
      case isFalse =>
        obtain rfl := Except.ok.inj hs
        exact absurd (hcount rfl rfl) hne
  · rintro ⟨rfl, rfl⟩
    constructor
    case started =>
      intro id ids root
      exact ⟨_, _, rfl, rfl, rfl, rfl, rfl⟩
    case restarted =>
      intro id ops
      obtain ⟨s, hs, halone⟩ : ∃ s, construct 1 true id = .ok s ∧ s.Alone := ⟨_, rfl, rfl, rfl⟩
      rw [hs]
      apply halone.foldlM ops

/-- `start` of `Scheduler(2, true)` accesses `m_threads[0]`, which is empty. -/
theorem two_unsound :
  (construct 2 true 7).bind (start (fun i => 8 + i) .term) = .error (.outOfBounds 0) ∧
    ¬ Sound 2 true
  := by
  refine ⟨rfl, fun h => ?_⟩
  obtain ⟨s, s', hs, hstart, -⟩ := h.started 7 (fun i => 8 + i) .term
  obtain rfl := Except.ok.inj hs
  cases hstart

end ThreadPool

end WbServer
