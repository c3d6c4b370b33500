import WbServer.Scheduler.Exclusive

/-!
# Tasks that are pinned to a thread

The thread a task is scheduled for is kept in its queue entry only, and the scan tests it
there. Beside the scheduler and its threads, `PinnedWorkers` records for every fiber
whether its task has been scheduled exactly once, and for which thread. `run` puts a task
that yields ready back without its thread, so that any thread may take it. It also puts
a callback into the `cb_fiber` of an earlier one, which entries of the queue may still
refer to.

As long as neither happens to a pinned task (`PinnedWorkers.KeepsPin`), each of its
segments is executed by its thread (`PinnedWorkers.reaches_affine`).
-/

namespace WbServer

variable {κ : Type}

/-- How the task of a fiber has been scheduled. -/
inductive Pin where
  /-- Not scheduled. -/
  | unscheduled
  /-- Scheduled once, for the thread `t`. -/
  | pinned (t : ThreadId)
  /-- Scheduled for any thread, or more than once. -/
  | free
  deriving DecidableEq

namespace Pin

/-- The first time a task is scheduled. -/
def ofThread (thread : ℤ) : Pin :=
  if thread = -1 then .free else .pinned thread

/-- A task is scheduled, possibly again. -/
def schedule (thread : ℤ) : Pin → Pin
  | .unscheduled => ofThread thread
  | _ => .free

/-- The task has been scheduled, and if it is pinned then to the given thread. -/
def Allows (t : ThreadId) : Pin → Prop
  | .unscheduled => False
  | .pinned t' => t = t'
  | .free => True

@[simp]
theorem allows_free (t : ThreadId) :
  free.Allows t
  := trivial

@[simp]
theorem allows_pinned {t t' : ThreadId} :
  (pinned t').Allows t ↔ t = t'
  := Iff.rfl

/-- A fiber that may run somewhere has been scheduled. -/
theorem Allows.ne_unscheduled {t : ThreadId} {p : Pin} (h : p.Allows t) :
  p ≠ .unscheduled
  := by
  rintro rfl
  apply h

/-- A fiber that is not pinned may run everywhere. -/
theorem allows_of_ne_pinned {p : Pin} (hscheduled : p ≠ .unscheduled)
    (hpinned : ∀ t, p ≠ .pinned t) (t : ThreadId) :
  p.Allows t
  := by
  cases p with
  | unscheduled => apply absurd rfl hscheduled
  | pinned t' => apply absurd rfl (hpinned t')
  | free => trivial

theorem ofThread_ne (thread : ℤ) :
  ofThread thread ≠ .pinned (-1) ∧ ofThread thread ≠ .unscheduled
  := by
  unfold ofThread
  split
  case isTrue => simp
  case isFalse h => simp [h]

/-- An entry that the scan of thread `t` may return is allowed for `t`. -/
theorem Allows.of_entry {p : Pin} {thread t : ℤ} (hp : p ≠ .pinned (-1)) (h : p.Allows thread)
    (ht : thread = -1 ∨ thread = t) :
  p.Allows t
  := by
  obtain rfl | rfl := ht
  · cases p with
    | unscheduled => apply h
    | pinned t' => exact absurd (congrArg _ (allows_pinned.mp h).symm) hp
    | free => trivial
  · apply h

/-- A task for any thread, or for this one, may run here. -/
theorem allows_ofThread {thread t : ℤ} (ht : thread = -1 ∨ thread = t) :
  (ofThread thread).Allows t
  := by
  unfold ofThread
  split
  case isTrue => trivial
  case isFalse h => exact (ht.resolve_left h).symm

/-- A task that is scheduled again is not pinned any more. -/
theorem Allows.schedule {p : Pin} {t : ThreadId} (h : p.Allows t) (thread : ℤ) (t' : ThreadId) :
  (p.schedule thread).Allows t'
  := by
  cases p with
  | unscheduled => apply h.elim
  | pinned _ => trivial
  | free => trivial

theorem schedule_ne (p : Pin) (thread : ℤ) :
  p.schedule thread ≠ .pinned (-1) ∧ p.schedule thread ≠ .unscheduled
  := by
  cases p with
  | unscheduled => apply ofThread_ne
  | pinned _ => simp [schedule]
  | free => simp [schedule]

/-- A fiber that is scheduled for a thread may run there. -/
theorem allows_schedule (p : Pin) (thread : ℤ) :
  (p.schedule thread).Allows thread
  := by
  cases p with
  | unscheduled => apply allows_ofThread (.inr rfl)
  | pinned _ => trivial
  | free => trivial

end Pin

/-- What a call records. -/
def Call.pins (next : FiberId) (p : FiberId → Pin) : Call κ → FiberId → Pin
  | .scheduler (some (.fiber f)) thread =>
      if f < next then Function.update p f ((p f).schedule thread) else p
  | _ => p

/-- What a step records: the idle fiber is no task, a callback takes its thread along into
its fiber, and the fiber of a callback that has ended holds no task. -/
def Action.pins (s : Workers κ) (p : FiberId → Pin) : Action κ → FiberId → Pin
  | .run _ => Function.update p s.next .free
  | .dispatch w =>
      match (s.worker w).pc with
      | .dispatch (some ⟨.cb _, thread⟩) =>
          Function.update p ((s.worker w).cbFiber.getD s.next) (.ofThread thread)
      | _ => p
  | .settle w =>
      match (s.worker w).pc with
      | .settle .cb f => if (s.heap f).mState.Finished then Function.update p f .free else p
      | _ => p
  | .call _ c => c.pins s.next p
  | .schedule c => c.pins s.next p
  | _ => p

/-- The fibers a thread holds in its variables. -/
def Worker.Holds (wk : Worker κ) (f : FiberId) : Prop :=
  wk.cbFiber = some f ∨ wk.pc ≠ .outside ∧ wk.idleFiber = f

/-- The fibers a thread refers to. -/
def Worker.Refers (wk : Worker κ) (f : FiberId) : Prop :=
  wk.pc.fiber? = some f ∨ wk.Holds f

/-- The scheduler, its threads, and how the task of each fiber has been scheduled. -/
structure PinnedWorkers (κ : Type) extends Workers κ where
  pins : FiberId → Pin

namespace PinnedWorkers

/-- A step of the scheduler and its threads, with what it records. -/
def step (a : Action κ) (s : PinnedWorkers κ) : Option (PinnedWorkers κ) :=
  (Workers.step a s.toWorkers).map fun t =>
    { toWorkers := t, pins := a.pins s.toWorkers s.pins }

/-- The records do not change the steps. -/
theorem step_toWorkers (a : Action κ) (s : PinnedWorkers κ) :
  (step a s).map toWorkers = Workers.step a s.toWorkers
  := by
  simp [step, Option.map_map, Function.comp_def]

/-- Before any thread has called `run` and anything has been scheduled. -/
structure Initial (s : PinnedWorkers κ) : Prop where
  workers : Workers.Initial s.toWorkers
  queue : s.mFibers = []
  pins : ∀ f, s.pins f = .unscheduled

/-- The transition system of a scheduler and its threads, with the records. -/
def system (κ : Type) : Transition.System (PinnedWorkers κ) (Action κ) where
  init := Initial
  step := step

/-- Every segment of a pinned task is executed by its thread. -/
def Affine (s : PinnedWorkers κ) : Prop :=
  ∀ w f t, (s.worker w).pc.executing = some f → s.pins f = .pinned t → w = t

/-- No entry of the queue holds the fiber, and no thread other than `w` has it at hand. -/
def Unshared (s : PinnedWorkers κ) (w : ThreadId) (f : FiberId) : Prop :=
  (∀ thread, ⟨.fiber f, thread⟩ ∉ s.mFibers) ∧ ∀ w' ≠ w, (s.worker w').pc.fiber? ≠ some f

/-- A pinned task is not put back by `run`, and a pinned callback is not put into a
`cb_fiber` that is in use elsewhere. -/
structure KeepsPin (a : Action κ) (s : PinnedWorkers κ) : Prop where
  requeue : ∀ w, a = .requeue w → ∀ b f, (s.worker w).pc = .requeue b f →
    ∀ t, s.pins f ≠ .pinned t
  dispatch : ∀ w, a = .dispatch w → ∀ c thread,
    (s.worker w).pc = .dispatch (some ⟨.cb c, thread⟩) → thread ≠ -1 →
    ∀ f, (s.worker w).cbFiber = some f → s.Unshared w f

/-! ### The invariant -/

/-- What the steps keep as long as they meet the condition. -/
structure Kept (s : PinnedWorkers κ) : Prop where
  pinned : ∀ f, s.pins f ≠ .pinned (-1)
  below : ∀ f, s.pins f ≠ .unscheduled → f < s.next
  queue : ∀ f thread, ⟨.fiber f, thread⟩ ∈ s.mFibers → (s.pins f).Allows thread
  refers : ∀ w f, (s.worker w).Refers f → (s.pins f).Allows w
  holds : ∀ w w' f, (s.worker w).Holds f → (s.worker w').Holds f → w = w'
  taken : ∀ w c thread, (s.worker w).pc = .dispatch (some ⟨.cb c, thread⟩) →
    thread = -1 ∨ thread = w

/-- If the pins are kept, no fiber runs on a thread that its pin forbids. -/
theorem Kept.affine {s : PinnedWorkers κ} (h : s.Kept) :
  s.Affine
  := by
  intro w f t hf ht
  have hallows := h.refers w f (.inl (Pc.fiber?_of_chosen (Pc.chosen_of_executing hf)))
  rw [ht] at hallows
  apply hallows

/-- Threads refer only to fibers that have been constructed. -/
theorem Kept.refers_below {s : PinnedWorkers κ} (h : s.Kept) {w : ThreadId} {f : FiberId}
    (hf : (s.worker w).Refers f) :
  f < s.next
  := h.below f (h.refers w f hf).ne_unscheduled

/-- The step of a thread `w`: what it records is allowed for the other threads that refer
to the fiber, and it holds no more than before apart from new fibers. -/
theorem Kept.step {s s' : PinnedWorkers κ} (h : s.Kept) {w : ThreadId}
    (hothers : ∀ w' ≠ w, s'.worker w' = s.worker w')
    (hpinned : ∀ f, s'.pins f ≠ .pinned (-1))
    (hbelow : ∀ f, s'.pins f ≠ .unscheduled → f < s'.next)
    (hpins : ∀ w' ≠ w, ∀ f, (s.worker w').Refers f → (s.pins f).Allows w' → (s'.pins f).Allows w')
    (hqueue : ∀ f thread, ⟨.fiber f, thread⟩ ∈ s'.mFibers → (s'.pins f).Allows thread)
    (hrefers : ∀ f, (s'.worker w).Refers f → (s'.pins f).Allows w)
    (hholds : ∀ f, (s'.worker w).Holds f → (s.worker w).Holds f ∨ s.next ≤ f)
    (htaken : ∀ c thread, (s'.worker w).pc = .dispatch (some ⟨.cb c, thread⟩) →
      thread = -1 ∨ thread = w) :
  s'.Kept
  := by
  have hother : ∀ w' ≠ w, ∀ f, (s'.worker w).Holds f → ¬ (s'.worker w').Holds f := by
    intro w' hw f hf hf'
    rw [hothers w' hw] at hf'
    obtain hold | hnew := hholds f hf
    · apply hw (h.holds w' w f hf' hold)
    · apply Nat.not_lt_of_le hnew (h.refers_below (.inr hf'))
  constructor
  case pinned => apply hpinned
  case below => apply hbelow
  case queue => apply hqueue
  case refers =>
    intro w' f hf
    by_cases hw : w' = w
    · rw [hw] at hf ⊢
      apply hrefers f hf
    · rw [hothers w' hw] at hf
      apply hpins w' hw f hf (h.refers w' f hf)
  case holds =>
    intro w₁ w₂ f h₁ h₂
    by_cases hw₁ : w₁ = w
    · by_cases hw₂ : w₂ = w
      · rw [hw₁, hw₂]
      · apply absurd h₂ (hother w₂ hw₂ f (hw₁ ▸ h₁))
    · by_cases hw₂ : w₂ = w
      · apply absurd h₁ (hother w₁ hw₁ f (hw₂ ▸ h₂))
      · rw [hothers w₁ hw₁] at h₁
        rw [hothers w₂ hw₂] at h₂
        apply h.holds w₁ w₂ f h₁ h₂
  case taken =>
    intro w' c thread hpc
    by_cases hw : w' = w
    · rw [hw] at hpc ⊢
      apply htaken c thread hpc
    · rw [hothers w' hw] at hpc
      apply h.taken w' c thread hpc

/-! ### What leaves the invariant alone -/

section Pieces

variable {s : PinnedWorkers κ} {w : ThreadId}

/-- The fibers themselves and the counters do not matter. -/
theorem Kept.congr (h : s.Kept) {t : Workers κ} (hworker : t.worker = s.worker)
    (hnext : t.next = s.next) (hqueue : t.mFibers = s.mFibers) :
  Kept ⟨t, s.pins⟩
  where
  pinned := h.pinned
  below := hnext ▸ h.below
  queue := hqueue ▸ h.queue
  refers := hworker ▸ h.refers
  holds := hworker ▸ h.holds
  taken := hworker ▸ h.taken

/-- A thread in `run` moves to a place with a fiber it refers to. -/
theorem Kept.move (h : s.Kept) (hin : (s.worker w).pc ≠ .outside) {pc : Pc κ}
    (hfiber : ∀ f, pc.fiber? = some f → (s.pins f).Allows w)
    (htaken : ∀ c thread, pc = .dispatch (some ⟨.cb c, thread⟩) → thread = -1 ∨ thread = w) :
  Kept ⟨s.setPc w pc, s.pins⟩
  := by
  have hworker : (s.setPc w pc).worker w = { s.worker w with pc := pc } := by
    simp [Workers.setPc]
  have hheld : ∀ f, ((s.setPc w pc).worker w).Holds f → (s.worker w).Holds f := by
    intro f hf
    rw [hworker] at hf
    obtain hcb | ⟨-, hidle⟩ := hf
    · exact .inl hcb
    · exact .inr ⟨hin, hidle⟩
  apply h.step (w := w)
  · exact fun w' hw => s.setPc_of_ne hw pc
  · apply h.pinned
  · apply h.below
  · exact fun _ _ _ _ => id
  · apply h.queue
  · rintro f (hf | hf)
    · apply hfiber f
      simpa using hf
    · apply h.refers w f (.inr (hheld f hf))
  · exact fun f hf => .inl (hheld f hf)
  · intro c thread hpc
    apply htaken c thread
    simpa using hpc

theorem Kept.set (h : s.Kept) (f : FiberId) (fb : Fiber κ) :
  Kept ⟨s.set f fb, s.pins⟩
  := h.congr rfl rfl rfl

/-- A thread in `run` goes on with a fiber it refers to, or with none. -/
theorem Kept.goOn (h : s.Kept) (hin : (s.worker w).pc ≠ .outside) {pc : Pc κ}
    (hfiber : ∀ f, pc.fiber? = some f → (s.worker w).Refers f)
    (hpc : ∀ ft, pc ≠ .dispatch (some ft)) :
  Kept ⟨s.setPc w pc, s.pins⟩
  := by
  apply h.move hin
  · exact fun f hf => h.refers w f (hfiber f hf)
  · exact fun c thread h => absurd h (hpc _)

/-- A thread goes on with the fiber at hand. -/
theorem Kept.goOnWith (h : s.Kept) {pc pc' : Pc κ} {f : FiberId} (hpc : (s.worker w).pc = pc)
    (hf : pc.fiber? = some f) (hf' : pc'.fiber? = some f) (hpc' : ∀ ft, pc' ≠ .dispatch (some ft)) :
  Kept ⟨s.setPc w pc', s.pins⟩
  := by
  apply h.goOn
  · rintro hout
    rw [← hpc, hout] at hf
    cases hf
  · intro g hg
    apply Or.inl
    rw [hpc, hf, ← hf', hg]
  · apply hpc'

theorem Kept.forgetCbFiber (h : s.Kept) :
  Kept ⟨s.setCbFiber w none, s.pins⟩
  := by
  have hworker : (s.setCbFiber w none).worker w = { s.worker w with cbFiber := none } := by
    simp [Workers.setCbFiber]
  have hheld : ∀ f, ((s.setCbFiber w none).worker w).Holds f → (s.worker w).Holds f := by
    rw [hworker]
    rintro f (hcb | hidle)
    · cases hcb
    · exact .inr hidle
  apply h.step (w := w)
  · exact fun w' hw => s.setCbFiber_of_ne hw none
  · apply h.pinned
  · apply h.below
  · exact fun _ _ _ _ => id
  · apply h.queue
  · rintro f (hf | hf)
    · rw [hworker] at hf
      apply h.refers w f (.inl hf)
    · apply h.refers w f (.inr (hheld f hf))
  · exact fun f hf => .inl (hheld f hf)
  · rw [hworker]
    apply h.taken w

/-- An entry is appended whose thread is allowed for its fiber. -/
theorem Kept.push (h : s.Kept) (ft : FiberAndThread κ)
    (hft : ∀ f, ft.task = .fiber f → (s.pins f).Allows ft.thread) :
  Kept ⟨{ s.toWorkers with mFibers := s.mFibers ++ [ft] }, s.pins⟩
  := by
  refine { h with queue := ?_ }
  intro f thread hmem
  obtain hmem | hmem := List.mem_append.mp hmem
  · apply h.queue f thread hmem
  · obtain rfl : _ = ft := List.mem_singleton.mp hmem
    apply hft f rfl

/-- A fiber is not pinned any more. -/
theorem Kept.record (h : s.Kept) {f : FiberId} {p : Pin} (hf : f < s.next)
    (hpinned : p ≠ .pinned (-1)) (hp : ∀ t, (s.pins f).Allows t → p.Allows t) :
  Kept ⟨s.toWorkers, Function.update s.pins f p⟩
  := by
  have hallows : ∀ g t, (s.pins g).Allows t → (Function.update s.pins f p g).Allows t := by
    intro g t hg
    by_cases hgf : g = f
    · rw [hgf, Function.update_self]
      apply hp t (hgf ▸ hg)
    · rw [Function.update_of_ne hgf]
      apply hg
  have hne : ∀ g, g ≠ f → Function.update s.pins f p g = s.pins g :=
    fun g hg => Function.update_of_ne hg p s.pins
  constructor
  case pinned =>
    intro g hg
    by_cases hgf : g = f
    · apply hpinned
      simpa [hgf] using hg
    · apply h.pinned g
      rw [← hne g hgf, ← hg]
  case below =>
    intro g hg
    by_cases hgf : g = f
    · apply hgf ▸ hf
    · apply h.below g
      rw [← hne g hgf]
      apply hg
  case queue => exact fun g t hg => hallows g t (h.queue g t hg)
  case refers => exact fun w g hg => hallows g w (h.refers w g hg)
  case holds => apply h.holds
  case taken => apply h.taken

end Pieces

/-! ### The steps -/

section Steps

variable {s : PinnedWorkers κ} {w : ThreadId}

/-- The thread constructs a fiber, which no other thread knows. -/
theorem Kept.alloc (h : s.Kept) (cb : Option (Code κ)) {wk : Worker κ} {p : Pin}
    (hp : p ≠ .pinned (-1)) (hallows : p.Allows w)
    (hfiber : ∀ f, wk.pc.fiber? = some f → f = s.next)
    (hholds : ∀ f, wk.Holds f → f = s.next ∨ (s.worker w).Holds f)
    (htaken : ∀ c thread, wk.pc ≠ .dispatch (some ⟨.cb c, thread⟩)) :
  Kept ⟨{ s.toWorkers with
      heap := Function.update s.heap s.next (Fiber.new cb)
      next := s.next + 1
      worker := Function.update s.worker w wk },
    Function.update s.pins s.next p⟩
  := by
  have hold : ∀ f t, (s.pins f).Allows t → (Function.update s.pins s.next p f).Allows t := by
    intro f t hf
    rwa [Function.update_of_ne (Nat.ne_of_lt (h.below f hf.ne_unscheduled))]
  apply h.step (w := w)
  · exact fun w' hw => Function.update_of_ne hw _ _
  · intro f
    by_cases hf : f = s.next
    · simpa [hf] using hp
    · simp [Function.update_of_ne hf, h.pinned f]
  · intro f hf
    by_cases hf' : f = s.next
    · simp [hf']
    · simp only [Function.update_of_ne hf'] at hf
      apply Nat.lt_succ_of_lt (h.below f hf)
  · exact fun w' _ f _ => hold f w'
  · exact fun f t hmem => hold f t (h.queue f t hmem)
  · intro f hf
    simp only [Function.update_self] at hf
    have hf' : f = s.next ∨ (s.worker w).Holds f := by
      obtain hf | hf := hf
      · exact .inl (hfiber f hf)
      · apply hholds f hf
    obtain rfl | hf' := hf'
    · simpa using hallows
    · apply hold f w (h.refers w f (.inr hf'))
  · intro f hf
    simp only [Function.update_self] at hf
    obtain rfl | hf := hholds f hf
    · exact .inr (Nat.le_refl _)
    · exact .inl hf
  · intro c thread hpc
    simp only [Function.update_self] at hpc
    exact absurd hpc (htaken c thread)

/-- A thread enters `run()` and constructs its idle fiber, which is free. -/
theorem Kept.run (h : s.Kept) {t : Workers κ} (hstep : s.stepRun w = some t) :
  Kept ⟨t, Function.update s.pins s.next .free⟩
  := by
  rcases Workers.stepRun_cases hstep with ⟨hpc, rfl⟩
  apply h.alloc (some .idle) (by simp) (by simp)
  · simp
  · simp [Worker.Holds, eq_comm]
  · simp

/-- The scan of a thread takes only entries that are not pinned to another thread. -/
theorem scan_thread {heap : FiberId → Fiber κ} {fs rest : List (FiberAndThread κ)}
    {ft : FiberAndThread κ} (hscan : WbServer.scan heap w fs = some (ft, rest)) :
  ft ∈ fs ∧ (∀ it ∈ rest, it ∈ fs) ∧ (ft.thread = -1 ∨ ft.thread = w)
  := by
  obtain ⟨pre, post, rfl, rfl, -, hft⟩ := scan_eq_some hscan
  refine ⟨by simp, by aesop, ?_⟩
  by_contra hthread
  apply hft
  exact .inl (not_or.mp hthread)

/-- A thread takes an entry that the scan lets it have. -/
theorem Kept.scan (h : s.Kept) {t : Workers κ} (hstep : s.stepScan w = some t) :
  Kept ⟨t, s.pins⟩
  := by
  rcases Workers.stepScan_cases hstep with ⟨hpc, ⟨-, rfl⟩ | ⟨ft, rest, hscan, rfl⟩⟩
  · apply h.goOn
    · simp [hpc]
    · simp
    · simp
  · obtain ⟨hft, hrest, hthread⟩ := scan_thread hscan
    have htaken : Kept ⟨{ s.toWorkers with mFibers := rest }, s.pins⟩ :=
      { h with queue := fun f thread hmem => h.queue f thread (hrest _ hmem) }
    apply htaken.move
    · simp [hpc]
    · intro f hf
      obtain ⟨task, thread⟩ := ft
      cases task with
      | fiber g =>
          obtain rfl : g = f := Option.some.inj hf
          apply (h.queue g thread hft).of_entry (h.pinned g) hthread
      | cb c => cases hf
    · rintro c thread ⟨⟩
      apply hthread

/-- The idle fiber may run on its own thread. -/
theorem Kept.idleOrBreak (h : s.Kept) {ft : Option (FiberAndThread κ)}
    (hpc : (s.worker w).pc = .dispatch ft) :
  Kept ⟨s.toWorkers.idleOrBreak w, s.pins⟩
  := by
  have hin : (s.worker w).pc ≠ .outside := by simp [hpc]
  unfold Workers.idleOrBreak
  split
  · apply h.goOn hin
    · simp
    · simp
  · apply h.goOn hin
    · rintro f ⟨⟩
      exact .inr (.inr ⟨hin, rfl⟩)
    · simp

/-- A callback takes its thread along into the `cb_fiber` of the thread. -/
theorem Kept.bind (h : s.Kept) {f : FiberId} (hcb : (s.worker w).cbFiber = some f) {thread : ℤ}
    (hthread : thread = -1 ∨ thread = w) (hunshared : thread ≠ -1 → s.Unshared w f) :
  Kept ⟨s.toWorkers, Function.update s.pins f (.ofThread thread)⟩
  := by
  have hheld : (s.worker w).Holds f := .inl hcb
  have hallows : ∀ g t, (g = f → thread = -1 ∨ t = w) → (s.pins g).Allows t →
      (Function.update s.pins f (.ofThread thread) g).Allows t := by
    intro g t hgt hg
    by_cases hgf : g = f
    · rw [hgf, Function.update_self]
      obtain rfl | rfl := hgt hgf
      · trivial
      · apply Pin.allows_ofThread hthread
    · rw [Function.update_of_ne hgf]
      apply hg
  apply h.step (w := w)
  · exact fun _ _ => rfl
  · intro g
    by_cases hgf : g = f
    · simp [hgf, Pin.ofThread_ne]
    · simp [Function.update_of_ne hgf, h.pinned]
  · intro g hg
    by_cases hgf : g = f
    · apply hgf ▸ h.refers_below (.inr hheld)
    · simp only [Function.update_of_ne hgf] at hg
      apply h.below g hg
  · intro w' hw g hg
    apply hallows
    rintro rfl
    by_contra hthread'
    obtain ⟨hany, -⟩ := not_or.mp hthread'
    obtain hpc | hheld' := hg
    · apply (hunshared hany).2 w' hw hpc
    · apply hw (h.holds w' w g hheld' hheld)
  · intro g thread' hmem
    apply hallows g thread' _ (h.queue g thread' hmem)
    rintro rfl
    by_contra hthread'
    apply (hunshared (not_or.mp hthread').1).1 thread' hmem
  · intro g hg
    apply hallows g w (fun _ => .inr rfl) (h.refers w g hg)
  · exact fun _ => .inl
  · apply h.taken w

/-- A callback is bound to a fiber to which no other thread refers, or to a new one. -/
theorem Kept.bindCb (h : s.Kept) {c : Code κ} {thread : ℤ}
    (hpc : (s.worker w).pc = .dispatch (some ⟨.cb c, thread⟩))
    (hunshared : thread ≠ -1 → ∀ f, (s.worker w).cbFiber = some f → s.Unshared w f) :
  Kept ⟨s.toWorkers.bindCb w c,
    Function.update s.pins ((s.worker w).cbFiber.getD s.next) (.ofThread thread)⟩
  := by
  have hin : (s.worker w).pc ≠ .outside := by simp [hpc]
  have hthread := h.taken w c thread hpc
  obtain ⟨f, hcb, hs'⟩ | ⟨hcb, hs'⟩ := Workers.bindCb_cases s.toWorkers w c
  · have hbind := h.bind hcb hthread fun hany => hunshared hany f hcb
    rw [hcb, Option.getD_some]
    obtain ⟨-, hs'⟩ | ⟨-, hs'⟩ := hs' <;> rw [hs']
    · apply (hbind.set f _).goOn hin
      · rintro g ⟨⟩
        exact .inr (.inl hcb)
      · simp
    · apply hbind.congr <;> rfl
  · rw [hcb, Option.getD_none, hs']
    apply h.alloc (some c) (Pin.ofThread_ne thread).1 (Pin.allows_ofThread hthread)
    · simp [eq_comm]
    · intro f hf
      have hf' : s.next = f ∨ (s.worker w).idleFiber = f := by simpa [Worker.Holds] using hf
      obtain rfl | hidle := hf'
      · exact .inl rfl
      · exact .inr (.inr ⟨hin, hidle⟩)
    · simp

/-- The thread chooses a branch. -/
theorem Kept.dispatch (h : s.Kept) {t : Workers κ} (hok : s.KeepsPin (.dispatch w))
    (hstep : s.stepDispatch w = some t) :
  Kept ⟨t, (Action.dispatch w).pins s.toWorkers s.pins⟩
  := by
  rcases Workers.stepDispatch_cases hstep with ⟨ft, hpc, hs'⟩
  rcases hs' with ⟨hft, rfl⟩ | ⟨f, thread, rfl, hfinished, rfl⟩ | ⟨c, thread, rfl, rfl⟩
  · match ft with
    | none =>
        simp only [Action.pins, hpc]
        apply h.idleOrBreak hpc
    | some ⟨.fiber f, thread⟩ =>
        simp only [Action.pins, hpc]
        apply h.idleOrBreak hpc
    | some ⟨.cb c, thread⟩ => apply absurd trivial (hft _ rfl)
  · simp only [Action.pins, hpc]
    apply h.goOnWith hpc rfl rfl
    simp
  · simp only [Action.pins, hpc]
    apply h.bindCb hpc
    apply hok.dispatch w rfl c thread hpc

/-- A call of the scheduler pins a fiber to the thread it is scheduled for. -/
theorem Kept.call (h : s.Kept) (c : Call κ) :
  Kept ⟨{ s.toWorkers with toScheduler := s.toScheduler.call c }, c.pins s.next s.pins⟩
  := by
  match c with
  | .scheduler none thread => apply h.congr rfl rfl rfl
  | .scheduler (some (.cb c)) thread => exact h.push ⟨.cb c, thread⟩ (by simp)
  | .scheduler (some (.fiber f)) thread =>
      by_cases hf : f < s.next
      · have hrecord : Kept ⟨s.toWorkers, Function.update s.pins f ((s.pins f).schedule thread)⟩ :=
          h.record hf (Pin.schedule_ne _ _).1 fun t ht => ht.schedule thread t
        have hpush := hrecord.push ⟨.fiber f, thread⟩ (by simp [Pin.allows_schedule])
        simpa [Call.pins, Scheduler.call, Scheduler.scheduler, Scheduler.schedulerNolock,
          Task.NonNull, hf] using hpush
      · simpa [Call.pins, Scheduler.call, Scheduler.scheduler, Scheduler.schedulerNolock,
          Task.NonNull, hf] using h.congr rfl rfl rfl
  | .newFiber cb => exact { h with below := fun f hf => Nat.lt_succ_of_lt (h.below f hf) }

/-- The thread looks at the state of the fiber that has come back. -/
theorem Kept.settle (h : s.Kept) {t : Workers κ} (hstep : s.stepSettle w = some t) :
  Kept ⟨t, (Action.settle w).pins s.toWorkers s.pins⟩
  := by
  have hpins : ∀ b f, (s.worker w).pc = .settle b f →
      Kept ⟨s.toWorkers, (Action.settle w).pins s.toWorkers s.pins⟩ := by
    intro b f hpc
    have hallows := h.refers w f (.inl (by simp [hpc]))
    have hbelow := h.below f hallows.ne_unscheduled
    cases b with
    | cb =>
        simp only [Action.pins, hpc]
        split
        · apply h.record hbelow
          · simp
          · simp
        · apply h
    | fiber => simpa only [Action.pins, hpc] using h
    | idle => simpa only [Action.pins, hpc] using h
  rcases Workers.stepSettle_cases hstep with ⟨b, f, hpc, hs'⟩
  have hin : (s.worker w).pc ≠ .outside := by simp [hpc]
  have h := hpins b f hpc
  generalize (Action.settle w).pins s.toWorkers s.pins = pins at h ⊢
  rcases hs' with ⟨-, rfl⟩ | ⟨-, rfl⟩ | ⟨-, -, rfl⟩ | ⟨-, -, rfl⟩
  · apply h.goOnWith hpc rfl rfl
    simp
  · have hhold : Kept ⟨s.toWorkers.holdUnlessFinished f, pins⟩ := by
      unfold Workers.holdUnlessFinished
      split
      · apply h
      · apply h.congr <;> rfl
    apply hhold.goOn
    · simpa using hin
    · simp
    · simp
  · apply (h.set f (Fiber.new none)).goOn hin
    · simp
    · simp
  · apply (h.set f (s.heap f).setHold).forgetCbFiber.goOn
    · simpa [Workers.setCbFiber, Workers.set] using hin
    · simp
    · simp

/-- A fiber that is ready again is scheduled for any thread. -/
theorem Kept.requeue (h : s.Kept) {t : Workers κ} (hok : s.KeepsPin (.requeue w))
    (hstep : s.stepRequeue w = some t) :
  Kept ⟨t, s.pins⟩
  := by
  rcases Workers.stepRequeue_cases hstep with ⟨b, f, u, hpc, hu, hs'⟩
  have hin : (u.worker w).pc ≠ .outside := by simp [hu, hpc]
  have hallows := h.refers w f (.inl (by simp [hpc]))
  have hany : (s.pins f).Allows (-1) :=
    Pin.allows_of_ne_pinned hallows.ne_unscheduled (hok.requeue w rfl b f hpc) (-1)
  have hpush : Kept ⟨u, s.pins⟩ := by
    have hf : f < s.next := h.below f hallows.ne_unscheduled
    simpa [hu, Scheduler.scheduler, Scheduler.schedulerNolock, Task.NonNull, hf] using
      h.push ⟨.fiber f, -1⟩ (by simpa using hany)
  rcases hs' with ⟨-, rfl⟩ | ⟨-, rfl⟩
  · apply hpush.forgetCbFiber.goOn
    · simpa [Workers.setCbFiber] using hin
    · simp
    · simp
  · apply hpush.goOn hin
    · simp
    · simp

/-- Every step keeps the pins. -/
theorem Kept.act (h : s.Kept) {a : Action κ} (hok : s.KeepsPin a) {t : Workers κ}
    (hstep : Workers.act a s.toWorkers = some t) :
  Kept ⟨t, a.pins s.toWorkers s.pins⟩
  := by
  cases a with
  | run w => apply h.run hstep
  | scan w => apply h.scan hstep
  | dispatch w => apply h.dispatch hok hstep
  | count w =>
      rcases Workers.stepCount_cases hstep with ⟨b, f, hpc, rfl⟩
      have hcount : Kept ⟨s.increment b, s.pins⟩ := by
        cases b <;> apply h.congr <;> rfl
      apply hcount.goOnWith (by simpa using hpc) rfl rfl
      simp
  | swapIn w =>
      rcases Workers.stepSwapIn_cases hstep with ⟨b, f, hpc, ⟨-, rfl⟩ | rfl | rfl⟩
      · apply h.congr <;> rfl
      · apply h.congr <;> rfl
      · apply (h.set f { s.heap f with mState := .exec }).goOnWith hpc rfl rfl
        simp
  | call w c =>
      rcases Workers.stepCall_cases hstep with ⟨-, rfl⟩
      apply h.call
  | leave w e =>
      rcases Workers.stepLeave_cases hstep with ⟨b, f, hpc, rfl⟩
      apply (h.set f (e.write (s.heap f)).1).goOnWith hpc rfl rfl
      simp
  | swapOut w =>
      rcases Workers.stepSwapOut_cases hstep with ⟨b, f, ctx, hpc, rfl⟩
      apply (h.set f ((s.heap f).swapOut ctx)).goOnWith hpc rfl rfl
      simp
  | uncount w =>
      rcases Workers.stepUncount_cases hstep with ⟨b, f, hpc, rfl⟩
      have hcount : Kept ⟨s.decrement b, s.pins⟩ := by
        cases b <;> apply h.congr <;> rfl
      apply hcount.goOnWith (by simpa using hpc) rfl rfl
      simp
  | settle w => apply h.settle hstep
  | requeue w => apply h.requeue hok hstep
  | schedule c =>
      obtain rfl := Option.some.inj hstep
      apply h.call
  | setStoping b =>
      obtain rfl := Option.some.inj hstep
      apply h.congr <;> rfl
  | setAutoStop b =>
      obtain rfl := Option.some.inj hstep
      apply h.congr <;> rfl

end Steps

/-- In every state that is reached under the condition. -/
theorem reaches_kept {s : PinnedWorkers κ} (h : (system κ).Reaches KeepsPin s) :
  s.Kept
  := by
  apply h.invariant
  · intro s hs
    constructor
    case pinned => simp [hs.pins]
    case below => simp [hs.pins]
    case queue => simp [hs.queue]
    case refers =>
      intro w f hf
      simp [Worker.Refers, Worker.Holds, hs.workers.outside w, hs.workers.cbFiber w] at hf
    case holds =>
      intro w w' f hf
      simp [Worker.Holds, hs.workers.outside w, hs.workers.cbFiber w] at hf
    case taken => simp [hs.workers.outside]
  · intro a s s' hs hok hstep
    obtain ⟨t, ht, rfl⟩ := Option.map_eq_some_iff.mp hstep
    simp only [Workers.step] at ht
    split at ht
    · cases ht
    · apply hs.act hok ht

/-- As long as `run` neither puts a pinned task back nor puts a pinned callback into a
`cb_fiber` that is in use elsewhere, each segment of a pinned task is executed by its
thread. -/
theorem reaches_affine {s : PinnedWorkers κ} (h : (system κ).Reaches KeepsPin s) :
  s.Affine
  := (reaches_kept h).affine

/-- A step that neither puts a fiber back nor chooses a branch. -/
theorem keepsPin_of_ne {a : Action κ} (hrequeue : ∀ w, a ≠ .requeue w)
    (hdispatch : ∀ w, a ≠ .dispatch w) (s : PinnedWorkers κ) :
  s.KeepsPin a
  where
  requeue w h := absurd h (hrequeue w)
  dispatch w h := absurd h (hdispatch w)

/-- Nothing is queued and no thread is in `run`. -/
def empty : PinnedWorkers ℕ where
  toWorkers := Workers.empty
  pins _ := .unscheduled

theorem empty_initial :
  Initial empty
  where
  workers := Workers.empty_initial
  queue := rfl
  pins _ := rfl

/-- The state after some steps from the empty scheduler. -/
def after (as : List (Action ℕ)) : PinnedWorkers ℕ :=
  ((system ℕ).exec as empty).getD empty

/-- Fiber `0` is scheduled for thread `1` and fiber `1` for any thread. Thread `2` scans first,
passes over the entry of fiber `0`, and takes that of fiber `1`. -/
def scanned : List (Action ℕ) :=
  [.schedule (.newFiber (some (.task 0))), .schedule (.newFiber (some (.task 1))),
    .schedule (.scheduler (some (.fiber 0)) 1), .schedule (.scheduler (some (.fiber 1)) (-1)),
    .run 1, .run 2, .scan 2, .scan 1]

/-- Both threads switch into their fibers. -/
def enter : List (Action ℕ) :=
  [.count 1, .count 2, .swapIn 2, .swapIn 1]

theorem reaches_affine_inside :
  let s := after (scanned ++ [.dispatch 1, .dispatch 2] ++ enter)
  (s.worker 1).pc = .inside .fiber 0 ∧ (s.worker 2).pc = .inside .fiber 1 ∧
    s.pins 0 = .pinned 1 ∧ s.Affine
  := by
  refine ⟨rfl, rfl, rfl, reaches_affine ?_⟩
  have hempty : (system ℕ).Reaches KeepsPin empty := .init empty_initial
  have hscanned : (system ℕ).Reaches KeepsPin (after scanned) :=
    hempty.exec scanned (by simp [scanned, keepsPin_of_ne]) rfl
  have hone : (after scanned).KeepsPin (.dispatch 1) := by
    constructor
    case requeue => simp
    case dispatch =>
      rintro w ⟨⟩ c thread hpc
      cases hpc
  have hdispatch : (system ℕ).Reaches KeepsPin (after (scanned ++ [.dispatch 1])) :=
    hscanned.step hone rfl
  have htwo : (after (scanned ++ [.dispatch 1])).KeepsPin (.dispatch 2) := by
    constructor
    case requeue => simp
    case dispatch =>
      rintro w ⟨⟩ c thread hpc
      cases hpc
  have hboth : (system ℕ).Reaches KeepsPin (after (scanned ++ [.dispatch 1, .dispatch 2])) :=
    hdispatch.step htwo rfl
  apply hboth.exec enter (by simp [enter, keepsPin_of_ne]) rfl

/-- Thread `w` executes one segment of the task it takes from the queue, which yields ready,
and puts the task back. -/
def yields (w : ThreadId) : List (Action ℕ) :=
  [.scan w, .dispatch w, .count w, .swapIn w, .leave w (.yieldToReady (.task 0)), .swapOut w,
    .uncount w, .settle w, .requeue w]

/-- Thread `2` takes a task from the queue and executes it. -/
def takes : List (Action ℕ) :=
  [.run 2, .scan 2, .dispatch 2, .count 2, .swapIn 2]

/-- A fiber and a callback are scheduled for thread `1` and yield ready: their next segment
is executed by thread `2`. -/
theorem yields_not_affine :
  (∃ s, (system ℕ).Reachable s ∧ s.pins 0 = .pinned 1 ∧ ¬ s.Affine) ∧
    ∃ s, (system ℕ).Reachable s ∧ s.pins 1 = .pinned 1 ∧ ¬ s.Affine
  := by
  have hempty : (system ℕ).Reachable empty := .init empty_initial
  constructor
  · refine ⟨_, hempty.exec ([.schedule (.newFiber (some (.task 0))),
      .schedule (.scheduler (some (.fiber 0)) 1), .run 1] ++ yields 1 ++ takes) rfl, rfl, ?_⟩
    intro h
    exact absurd (h 2 0 1 rfl rfl) (by decide)
  · refine ⟨_, hempty.exec ([.schedule (.scheduler (some (.cb (.task 0))) 1),
      .run 1] ++ yields 1 ++ takes) rfl, rfl, ?_⟩
    intro h
    exact absurd (h 2 1 1 rfl rfl) (by decide)

end PinnedWorkers

end WbServer
