import WbServer.Scheduler.Workers

/-!
# What `stopping()` tells

`stopping()` looks at two witnesses of pending work: the queue and
`m_active_thread_count`. The counter is the number of threads between its increment and
its decrement (`Workers.CountsActive`), in every state that the threads can reach. A thread
holds work outside of the queue and outside of the counter in two places: behind the scan
and in front of the increment, and behind the decrement while it holds a fiber it found or
will find `READY` (`Pc.Gap`). `Workers.stopping_sound_of_no_gap` says that these are the only
places where `stopping()` misses something.
-/

namespace WbServer

variable {κ : Type}

/-- Between the increment and the decrement of `m_active_thread_count`. -/
def Pc.Counted : Pc κ → Prop
  | .enter b _ => b ≠ .idle
  | .inside b _ => b ≠ .idle
  | .leaving b _ _ => b ≠ .idle
  | .back b _ => b ≠ .idle
  | _ => False

/-- A thread at this place holds work that is not finished: an entry that it has erased from
the queue and will execute, a task it is inside of, or a `READY` fiber it has not queued
again. -/
def Pc.Pending (heap : FiberId → Fiber κ) : Pc κ → Prop
  | .dispatch (some ft) => ft.Runnable heap
  | .count b _ => b ≠ .idle
  | .enter b _ => b ≠ .idle
  | .inside b _ => b ≠ .idle
  | .leaving b _ _ => b ≠ .idle
  | .back b f => b ≠ .idle ∧ (heap f).mState = .ready
  | .settle b f => b ≠ .idle ∧ (heap f).mState = .ready
  | .requeue _ _ => True
  | _ => False

/-- A thread at this place holds an entry whose increment is to come, or a `READY` fiber
whose decrement is done. -/
def Pc.Gap (heap : FiberId → Fiber κ) : Pc κ → Prop
  | .dispatch (some ft) => ft.Runnable heap
  | .count b _ => b ≠ .idle
  | .settle b f => b ≠ .idle ∧ (heap f).mState = .ready
  | .requeue _ _ => True
  | _ => False

/-- A thread in one of the two windows has work that is not done. -/
theorem Pc.Gap.pending {heap : FiberId → Fiber κ} {pc : Pc κ}
    (h : pc.Gap heap) :
  pc.Pending heap
  := by
  cases pc with
  | dispatch ft =>
      cases ft with
      | none => apply h.elim
      | some ft => apply h
  | outside | head | enter | inside | leaving | back => apply h.elim
  | count | settle | requeue => apply h

/-- Work that is not done is counted, or its thread is in one of the two windows. -/
theorem Pc.Pending.counted_or_gap {heap : FiberId → Fiber κ} {pc : Pc κ}
    (h : pc.Pending heap) :
  pc.Counted ∨ pc.Gap heap
  := by
  cases pc with
  | dispatch ft =>
      cases ft with
      | none => apply h.elim
      | some ft => exact .inr h
  | outside | head => apply h.elim
  | enter | inside | leaving => exact .inl h
  | back => exact .inl h.1
  | count | settle | requeue => exact .inr h

namespace Workers

/-! ### The counter -/

/-- `m_active_thread_count` is the number of threads between increment and decrement. -/
def CountsActive (s : Workers κ) : Prop :=
  ∃ S : Finset ThreadId, (∀ w, w ∈ S ↔ (s.worker w).pc.Counted) ∧
    s.mActiveThreadCount = S.card

/-- A step that moves one thread to a place on the same side of the counter. -/
theorem CountsActive.of_same {s s' : Workers κ} (h : s.CountsActive) (w : ThreadId)
    (hothers : ∀ w' ≠ w, s'.worker w' = s.worker w')
    (hpc : (s'.worker w).pc.Counted ↔ (s.worker w).pc.Counted)
    (hcount : s'.mActiveThreadCount = s.mActiveThreadCount) :
  s'.CountsActive
  := by
  obtain ⟨S, hS, hcard⟩ := h
  refine ⟨S, fun w' => ?_, hcount.trans hcard⟩
  by_cases hw : w' = w
  · rw [hw, hS, hpc]
  · rw [hS, hothers w' hw]

/-- A step that increments the counter. -/
theorem CountsActive.of_up {s s' : Workers κ} (h : s.CountsActive) (w : ThreadId)
    (hothers : ∀ w' ≠ w, s'.worker w' = s.worker w') (hpc : ¬ (s.worker w).pc.Counted)
    (hpc' : (s'.worker w).pc.Counted)
    (hcount : s'.mActiveThreadCount = s.mActiveThreadCount + 1) :
  s'.CountsActive
  := by
  obtain ⟨S, hS, hcard⟩ := h
  have hw : w ∉ S := (hS w).not.mpr hpc
  refine ⟨S.cons w hw, fun w' => ?_, by rw [hcount, hcard, Finset.card_cons]⟩
  rw [Finset.mem_cons]
  by_cases hw' : w' = w
  · simp [hw', hpc']
  · simp [hw', hS, hothers w' hw']

/-- A step that decrements the counter. -/
theorem CountsActive.of_down {s s' : Workers κ} (h : s.CountsActive) (w : ThreadId)
    (hothers : ∀ w' ≠ w, s'.worker w' = s.worker w') (hpc : (s.worker w).pc.Counted)
    (hpc' : ¬ (s'.worker w).pc.Counted)
    (hcount : s'.mActiveThreadCount = s.mActiveThreadCount - 1) :
  s'.CountsActive
  := by
  obtain ⟨S, hS, hcard⟩ := h
  have hw : w ∈ S := (hS w).mpr hpc
  refine ⟨S.erase w, fun w' => ?_, by rw [hcount, hcard, Finset.card_erase_of_mem hw]⟩
  rw [Finset.mem_erase]
  by_cases hw' : w' = w
  · simp [hw', hpc']
  · simp [hw', hS, hothers w' hw']

theorem CountsActive.setPc {s t : Workers κ} (h : s.CountsActive)
    {w : ThreadId} (hothers : ∀ w' ≠ w, t.worker w' = s.worker w')
    (hcount : t.mActiveThreadCount = s.mActiveThreadCount) {pc : Pc κ}
    (hpc : pc.Counted ↔ (s.worker w).pc.Counted) :
  (t.setPc w pc).CountsActive
  := by
  refine h.of_same w ?_ ?_ hcount
  · intro w' hw'
    rw [setPc_of_ne _ hw', hothers w' hw']
  · rw [setPc_self, hpc]

theorem CountsActive.idleOrBreak {s : Workers κ} (h : s.CountsActive) {w : ThreadId}
    (hpc : ¬ (s.worker w).pc.Counted) :
  (s.idleOrBreak w).CountsActive
  := by
  unfold Workers.idleOrBreak
  split
  · apply h.setPc (fun _ _ => rfl) rfl (iff_of_false id hpc)
  · apply h.setPc (fun _ _ => rfl) rfl (iff_of_false id hpc)

theorem CountsActive.bindCb {s : Workers κ} (h : s.CountsActive) {w : ThreadId}
    (hpc : ¬ (s.worker w).pc.Counted) (c : Code κ) :
  (s.bindCb w c).CountsActive
  := by
  obtain ⟨f, -, ⟨-, hs'⟩ | ⟨-, hs'⟩⟩ | ⟨-, hs'⟩ := bindCb_cases s w c <;> rw [hs']
  · apply h.setPc (fun _ _ => rfl) rfl (iff_of_false id hpc)
  · apply h
  · refine h.of_same w ?_ ?_ rfl
    · intro w' hw'
      apply Function.update_of_ne hw'
    · simp only [Function.update_self]
      apply iff_of_false id hpc

/-- The counter is incremented. -/
theorem CountsActive.increment {s : Workers κ} (h : s.CountsActive) {w : ThreadId} {b : Branch}
    {f : FiberId} (hpc : (s.worker w).pc = .count b f) :
  ((s.increment b).setPc w (.enter b f)).CountsActive
  := by
  by_cases hb : b = .idle
  · subst hb
    apply h.setPc (fun _ _ => rfl) rfl
    simp [hpc, Pc.Counted]
  · have hcount : (s.increment b).mActiveThreadCount = s.mActiveThreadCount + 1 := by
      cases b <;> first | rfl | contradiction
    refine h.of_up w ?_ ?_ ?_ hcount
    · intro w' hw'
      rw [setPc_of_ne _ hw', increment_worker]
    · simp [hpc, Pc.Counted]
    · simpa [Pc.Counted] using hb

/-- The counter is decremented. -/
theorem CountsActive.decrement {s : Workers κ} (h : s.CountsActive) {w : ThreadId} {b : Branch}
    {f : FiberId} (hpc : (s.worker w).pc = .back b f) :
  ((s.decrement b).setPc w (.settle b f)).CountsActive
  := by
  by_cases hb : b = .idle
  · subst hb
    apply h.setPc (fun _ _ => rfl) rfl
    simp [hpc, Pc.Counted]
  · have hcount : (s.decrement b).mActiveThreadCount = s.mActiveThreadCount - 1 := by
      cases b <;> first | rfl | contradiction
    refine h.of_down w ?_ ?_ ?_ hcount
    · intro w' hw'
      rw [setPc_of_ne _ hw', decrement_worker]
    · simpa [hpc, Pc.Counted] using hb
    · simp [Pc.Counted]

/-- The thread chooses a branch and is not counted yet. -/
theorem CountsActive.dispatch {s s' : Workers κ} (h : s.CountsActive) {w : ThreadId}
    (hstep : s.stepDispatch w = some s') :
  s'.CountsActive
  := by
  rcases stepDispatch_cases hstep with ⟨ft, hpc, hs'⟩
  have hcounted : ¬ (s.worker w).pc.Counted := by simp [hpc, Pc.Counted]
  rcases hs' with ⟨-, rfl⟩ | ⟨f, thread, -, -, rfl⟩ | ⟨c, thread, -, rfl⟩
  · apply h.idleOrBreak hcounted
  · apply h.setPc (fun _ _ => rfl) rfl
    apply iff_of_false id hcounted
  · apply h.bindCb hcounted

theorem CountsActive.swapIn {s s' : Workers κ} (h : s.CountsActive) {w : ThreadId}
    (hstep : s.stepSwapIn w = some s') :
  s'.CountsActive
  := by
  rcases stepSwapIn_cases hstep with ⟨b, f, hpc, ⟨-, rfl⟩ | rfl | rfl⟩
  · apply h
  · apply h
  · apply h.setPc (fun _ _ => rfl) rfl
    simp [hpc, Pc.Counted]

/-- A call of the scheduler counts nobody. -/
theorem CountsActive.call {s : Workers κ} (h : s.CountsActive) (c : Call κ) :
  CountsActive { s with toScheduler := s.toScheduler.call c }
  := by
  refine h.of_same 0 (fun _ _ => rfl) Iff.rfl ?_
  cases c <;> rfl

/-- The thread looks at the fiber that has come back when it is no longer counted. -/
theorem CountsActive.settle {s s' : Workers κ} (h : s.CountsActive) {w : ThreadId}
    (hstep : s.stepSettle w = some s') :
  s'.CountsActive
  := by
  rcases stepSettle_cases hstep with ⟨b, f, hpc, hs'⟩
  rcases hs' with ⟨-, rfl⟩ | ⟨-, rfl⟩ | ⟨-, -, rfl⟩ | ⟨-, -, rfl⟩
  · apply h.setPc (fun _ _ => rfl) rfl
    simp [hpc, Pc.Counted]
  · apply h.setPc (by simp) (by simp)
    simp [hpc, Pc.Counted]
  · apply h.setPc (fun _ _ => rfl) rfl
    simp [hpc, Pc.Counted]
  · apply h.setPc (fun w' hw' => setCbFiber_of_ne _ hw' _) rfl
    simp [hpc, Pc.Counted]

theorem CountsActive.requeue {s s' : Workers κ} (h : s.CountsActive) {w : ThreadId}
    (hstep : s.stepRequeue w = some s') :
  s'.CountsActive
  := by
  rcases stepRequeue_cases hstep with ⟨b, f, t, hpc, rfl, ⟨-, rfl⟩ | ⟨-, rfl⟩⟩
  · apply h.setPc (fun w' hw' => setCbFiber_of_ne _ hw' _) rfl
    simp [hpc, Pc.Counted]
  · apply h.setPc (fun _ _ => rfl) rfl
    simp [hpc, Pc.Counted]

/-- Every step keeps the counter. -/
theorem CountsActive.act {a : Action κ} {s s' : Workers κ} (h : s.CountsActive)
    (hstep : act a s = some s') :
  s'.CountsActive
  := by
  cases a with
  | run w =>
      rcases stepRun_cases hstep with ⟨hpc, rfl⟩
      refine h.of_same w ?_ ?_ rfl
      · intro w' hw'
        apply Function.update_of_ne hw'
      · simp [hpc, Pc.Counted]
  | scan w =>
      rcases stepScan_cases hstep with ⟨hpc, ⟨-, rfl⟩ | ⟨ft, rest, -, rfl⟩⟩
      · apply h.setPc (fun _ _ => rfl) rfl
        simp [hpc, Pc.Counted]
      · apply h.setPc (fun _ _ => rfl) rfl
        simp [hpc, Pc.Counted]
  | dispatch w => apply h.dispatch hstep
  | count w =>
      rcases stepCount_cases hstep with ⟨b, f, hpc, rfl⟩
      apply h.increment hpc
  | swapIn w => apply h.swapIn hstep
  | call w c =>
      rcases stepCall_cases hstep with ⟨-, rfl⟩
      apply h.call
  | leave w e =>
      rcases stepLeave_cases hstep with ⟨b, f, hpc, rfl⟩
      apply h.setPc (fun _ _ => rfl) rfl
      simp [hpc, Pc.Counted]
  | swapOut w =>
      rcases stepSwapOut_cases hstep with ⟨b, f, ctx, hpc, rfl⟩
      apply h.setPc (fun _ _ => rfl) rfl
      simp [hpc, Pc.Counted]
  | uncount w =>
      rcases stepUncount_cases hstep with ⟨b, f, hpc, rfl⟩
      apply h.decrement hpc
  | settle w => apply h.settle hstep
  | requeue w => apply h.requeue hstep
  | schedule c =>
      obtain rfl := Option.some.inj hstep
      apply h.call
  | setStoping b =>
      obtain rfl := Option.some.inj hstep
      apply h
  | setAutoStop b =>
      obtain rfl := Option.some.inj hstep
      apply h

/-- In every reachable state `m_active_thread_count` counts the threads between increment
and decrement. -/
theorem reachable_countsActive {s : Workers κ} (h : (system κ).Reachable s) :
  s.CountsActive
  := by
  apply h.invariant
  · intro s hs
    use ∅
    refine ⟨fun w => ?_, hs.active⟩
    simp [hs.outside w, Pc.Counted]
  · intro a s s' hs _ hstep
    simp only [system, step] at hstep
    split at hstep
    · simp at hstep
    · apply hs.act hstep

/-! ### Pending work -/

/-- No task is pending: neither in the queue nor in the hands of a thread. -/
structure Quiet (s : Workers κ) : Prop where
  queue : s.mFibers = []
  workers : ∀ w, ¬ (s.worker w).pc.Pending s.heap

/-- `stopping()` is true behind `stop` if nothing is queued and no thread is counted. -/
theorem stopping_iff {s : Workers κ} (h : (system κ).Reachable s) :
  s.stopping = true ↔ s.mAutoStop = true ∧ s.mStoping = true ∧ s.mFibers = [] ∧
    ∀ w, ¬ (s.worker w).pc.Counted
  := by
  obtain ⟨S, hS, hcard⟩ := reachable_countsActive h
  have hzero : s.mActiveThreadCount = 0 ↔ ∀ w, ¬ (s.worker w).pc.Counted := by
    rw [hcard, Finset.card_eq_zero, Finset.eq_empty_iff_forall_notMem]
    apply forall_congr' fun w => (hS w).not
  simp [Scheduler.stopping, hzero, and_assoc]

/-- `stopping()` is right when it is called while no thread is in one of the two gaps. When it
returns `true` while a thread is in a gap, the work of this thread is still pending. -/
theorem stopping_sound_of_no_gap {s : Workers κ} (h : (system κ).Reachable s) :
  ((∀ w, ¬ (s.worker w).pc.Gap s.heap) → s.stopping = true → s.Quiet) ∧
    (s.stopping = true → (∃ w, (s.worker w).pc.Gap s.heap) → ¬ s.Quiet)
  := by
  constructor
  · intro hgap hstopping
    obtain ⟨-, -, hfibers, hcounted⟩ := (stopping_iff h).mp hstopping
    refine ⟨hfibers, fun w hw => ?_⟩
    -- what is pending and not counted is in a gap
    obtain hw | hw := hw.counted_or_gap
    · apply hcounted w hw
    · apply hgap w hw
  · rintro - ⟨w, hw⟩ hquiet
    apply hquiet.workers w hw.pending

/-- Thread `1` executes a callback to its end, while thread `2` finds nothing to do and goes
into its idle fiber. -/
def worked : List (Action ℕ) :=
  [.schedule (.scheduler (some (.cb (.task 0))) (-1)), .run 1, .run 2, .scan 1, .scan 2,
    .dispatch 1, .count 1, .dispatch 2, .count 2, .swapIn 1, .swapIn 2, .setAutoStop true,
    .setStoping true, .leave 1 .ret, .swapOut 1, .uncount 1, .settle 1]

theorem stopping_sound_of_no_gap_worked :
  ∃ s, (system ℕ).exec worked empty = some s ∧ s.stopping = true ∧
    (s.worker 1).pc = .head ∧ (s.worker 2).pc = .inside .idle 1 ∧
    (∀ w, ¬ (s.worker w).pc.Gap s.heap) ∧ s.Quiet
  := by
  obtain ⟨s, hs⟩ : ∃ s, (system ℕ).exec worked empty = some s := Option.isSome_iff_exists.mp rfl
  have hview : ((system ℕ).exec worked empty).map (fun s =>
      (s.stopping, (s.worker 1).pc, (s.worker 2).pc)) =
    some (true, .head, .inside .idle 1) := rfl
  rw [hs, Option.map_some, Option.some_inj, Prod.mk.injEq, Prod.mk.injEq] at hview
  obtain ⟨hstopping, hone, htwo⟩ := hview
  have hgap : ∀ w, ¬ (s.worker w).pc.Gap s.heap := by
    intro w
    by_cases hw : w = 1 ∨ w = 2
    · obtain rfl | rfl := hw
      · simp [hone, Pc.Gap]
      · simp [htwo, Pc.Gap]
    · obtain ⟨hw1, hw2⟩ := not_or.mp hw
      have hworker : s.worker w = empty.worker w := by
        apply exec_worker_of_ne hs
        simp [worked, Action.worker?, Ne.symm hw1, Ne.symm hw2]
      simp [hworker, empty, Pc.Gap]
  have hempty : (system ℕ).Reachable empty := .init empty_initial
  exact ⟨s, hs, hstopping, hone, htwo, hgap,
    (stopping_sound_of_no_gap (hempty.exec worked hs)).1 hgap hstopping⟩

/-- Thread `1` has erased a callback and stands in front of the increment. -/
def dequeued : List (Action ℕ) :=
  [.schedule (.scheduler (some (.cb (.task 0))) (-1)), .run 1, .setAutoStop true,
    .setStoping true, .scan 1]

/-- `stopping()` returns `true` while thread `1` is about to execute a callback. -/
theorem stopping_with_pending_callback :
  ∃ s, (system ℕ).Reachable s ∧ s.stopping = true ∧
    (s.worker 1).pc.Pending s.heap ∧ ¬ s.Quiet
  := by
  have hempty : (system ℕ).Reachable empty := .init empty_initial
  refine ⟨_, hempty.exec dequeued rfl, rfl, trivial, fun h => h.workers 1 trivial⟩

end Workers

end WbServer
