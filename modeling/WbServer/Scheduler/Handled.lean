import WbServer.Scheduler.Exclusive

/-!
# Fibers at hand

A thread handles a fiber from the dispatch that chooses it until it is done with it, behind the
switch back (`Pc.handled`). If no thread chooses a fiber that another thread handles
(`Workers.Unhandled`), then the state of a fiber tells whether its callback has started and not
ended: exactly then it is none of `INIT`, `TERM` and `EXCEPT` (`Workers.Orderly`).
-/

namespace WbServer

variable {κ : Type}

namespace Pc

/-- The fiber chosen at the dispatch and not yet done with. -/
@[simp]
def handled : Pc κ → Option FiberId
  | .count _ f => some f
  | .enter _ f => some f
  | .inside _ f => some f
  | .leaving _ f _ => some f
  | .back _ f => some f
  | .settle _ f => some f
  | .requeue _ f => some f
  | _ => none

/-- The fiber whose segment has ended. -/
@[simp]
def ended : Pc κ → Option FiberId
  | .leaving _ f _ => some f
  | .back _ f => some f
  | .settle _ f => some f
  | .requeue _ f => some f
  | _ => none

variable {pc : Pc κ} {f : FiberId}

/-- A fiber that has been chosen is handled. -/
theorem handled_of_chosen (h : pc.chosen = some f) :
  pc.handled = some f
  := by
  cases pc <;> first | exact h | cases h

/-- A fiber that is executed is handled. -/
theorem handled_of_executing (h : pc.executing = some f) :
  pc.handled = some f
  := handled_of_chosen (chosen_of_executing h)

/-- A fiber that has come back is still handled. -/
theorem handled_of_ended (h : pc.ended = some f) :
  pc.handled = some f
  := by
  cases pc <;> first | exact h | cases h

theorem fiber?_of_handled (h : pc.handled = some f) :
  pc.fiber? = some f
  := by
  cases pc <;> first | exact h | cases h

theorem executing_of_running (h : pc.running = some f) :
  pc.executing = some f
  := by
  cases pc <;> first | exact h | cases h

end Pc

attribute [simp] Pc.executing

namespace Workers

/-- At a dispatch, the thread does not choose a fiber that another thread handles. -/
def Unhandled (a : Action κ) (s : Workers κ) : Prop :=
  ∀ w, a = .dispatch w → ∀ f, s.chooses w = some f →
    ∀ w' ≠ w, (s.worker w').pc.handled ≠ some f

/-- A fiber that is not handled is free. -/
theorem Unhandled.choosesFree {a : Action κ} {s : Workers κ} (h : Unhandled a s) :
  ChoosesFree a s
  := by
  intro w ha f hf w' hw hchosen
  apply h w ha f hf w' hw (Pc.handled_of_chosen hchosen)

/-- A step that is not a dispatch chooses nothing. -/
theorem unhandled_of_ne {a : Action κ} (ha : ∀ w, a ≠ .dispatch w) (s : Workers κ) :
  Unhandled a s
  := fun w h => absurd h (ha w)

/-- The callback of the fiber has yielded, and is still to be resumed. -/
def Paused (s : Workers κ) (f : FiberId) : Prop :=
  ∃ c, (∃ w b, (s.worker w).pc = .leaving b f (.suspended c)) ∨
    (∀ w, (s.worker w).pc.executing ≠ some f) ∧ (s.heap f).mCtx = .suspended c

/-- The callback of the fiber has started and not ended. -/
def Started (s : Workers κ) (f : FiberId) : Prop :=
  (∃ w, (s.worker w).pc.running = some f) ∨ s.Paused f

/-- What the steps keep as long as no thread chooses a fiber that another thread handles. -/
structure Orderly (s : Workers κ) : Prop where
  single : ∀ w w' f, (s.worker w).pc.handled = some f → (s.worker w').pc.handled = some f →
    w = w'
  ended : ∀ w f, (s.worker w).pc.ended = some f → (s.heap f).mState ≠ .init
  started : ∀ f < s.next, s.Started f ↔ ¬ (s.heap f).mState.Resettable

variable {s t : Workers κ} {w : ThreadId} {f : FiberId}

/-! ### Started callbacks -/

/-- A fiber that nobody executes and that is not suspended has not been started. -/
theorem not_started (hexec : ∀ w, (s.worker w).pc.executing ≠ some f)
    (hctx : ∀ c, (s.heap f).mCtx ≠ .suspended c) :
  ¬ s.Started f
  := by
  rintro (⟨w, hw⟩ | ⟨c, ⟨w, b, hpc⟩ | ⟨-, hc⟩⟩)
  · apply hexec w (Pc.executing_of_running hw)
  · apply hexec w
    simp [hpc]
  · apply hctx c hc

/-- Steps of threads that do not execute the fiber. -/
theorem paused_congr (hpc : ∀ w, (t.worker w).pc = (s.worker w).pc ∨
      (s.worker w).pc.executing ≠ some f ∧ (t.worker w).pc.executing ≠ some f)
    (hctx : (t.heap f).mCtx = (s.heap f).mCtx) :
  t.Paused f ↔ s.Paused f
  := by
  have hexec (w : ThreadId) :
      (t.worker w).pc.executing ≠ some f ↔ (s.worker w).pc.executing ≠ some f := by
    obtain h | ⟨hs, ht⟩ := hpc w
    · rw [h]
    · exact iff_of_true ht hs
  have hleaving (w : ThreadId) (b : Branch) (c : Code κ) :
      (t.worker w).pc = .leaving b f (.suspended c) ↔
        (s.worker w).pc = .leaving b f (.suspended c) := by
    obtain h | ⟨hs, ht⟩ := hpc w
    · rw [h]
    · apply iff_of_false
      · exact fun h => ht (by simp [h])
      · exact fun h => hs (by simp [h])
  simp only [Paused, hexec, hleaving, hctx]

theorem started_congr (hpc : ∀ w, (t.worker w).pc = (s.worker w).pc ∨
      (s.worker w).pc.executing ≠ some f ∧ (t.worker w).pc.executing ≠ some f)
    (hctx : (t.heap f).mCtx = (s.heap f).mCtx) :
  t.Started f ↔ s.Started f
  := by
  have hrunning (w : ThreadId) :
      (t.worker w).pc.running = some f ↔ (s.worker w).pc.running = some f := by
    obtain h | ⟨hs, ht⟩ := hpc w
    · rw [h]
    · apply iff_of_false
      · exact fun h => ht (Pc.executing_of_running h)
      · exact fun h => hs (Pc.executing_of_running h)
  simp only [Started, hrunning, paused_congr hpc hctx]

/-- The step of a thread that does not execute the fiber. -/
theorem pc_or_of_others (hothers : ∀ w' ≠ w, t.worker w' = s.worker w')
    (hs : (s.worker w).pc.executing ≠ some f) (ht : (t.worker w).pc.executing ≠ some f)
    (w' : ThreadId) :
  (t.worker w').pc = (s.worker w').pc ∨
    (s.worker w').pc.executing ≠ some f ∧ (t.worker w').pc.executing ≠ some f
  := by
  by_cases hw : w' = w
  · rw [hw]
    exact .inr ⟨hs, ht⟩
  · rw [hothers w' hw]
    exact .inl rfl

/-! ### The steps -/

/-- The step of a thread `w` that changes at most the fiber `f`, which no other thread
handles. -/
theorem Orderly.step (h : s.Orderly) (hothers : ∀ w' ≠ w, t.worker w' = s.worker w')
    (hhandled : ∀ g, (t.worker w).pc.handled = some g →
      (s.worker w).pc.handled = some g ∨ ∀ w' ≠ w, (s.worker w').pc.handled ≠ some g)
    (hfree : ∀ w' ≠ w, (s.worker w').pc.handled ≠ some f)
    (hheap : ∀ g ≠ f, t.heap g = s.heap g) (hnext : ∀ g < t.next, g ≠ f → g < s.next)
    (hs : ∀ g ≠ f, (s.worker w).pc.executing ≠ some g)
    (ht : ∀ g ≠ f, (t.worker w).pc.executing ≠ some g)
    (hended : ∀ g, (t.worker w).pc.ended = some g → (t.heap g).mState ≠ .init)
    (hstarted : f < t.next → (t.Started f ↔ ¬ (t.heap f).mState.Resettable)) :
  t.Orderly
  := by
  have hother : ∀ w' ≠ w, ∀ g, (t.worker w).pc.handled = some g →
      (t.worker w').pc.handled ≠ some g := by
    intro w' hw g hg hg'
    rw [hothers w' hw] at hg'
    obtain hg | hg := hhandled g hg
    · apply hw (h.single w' w g hg' hg)
    · apply hg w' hw hg'
  constructor
  case single =>
    intro w₁ w₂ g h₁ h₂
    by_cases hw₁ : w₁ = w
    · by_cases hw₂ : w₂ = w
      · rw [hw₁, hw₂]
      · exact absurd h₂ (hother w₂ hw₂ g (hw₁ ▸ h₁))
    · by_cases hw₂ : w₂ = w
      · exact absurd h₁ (hother w₁ hw₁ g (hw₂ ▸ h₂))
      · rw [hothers w₁ hw₁] at h₁
        rw [hothers w₂ hw₂] at h₂
        apply h.single w₁ w₂ g h₁ h₂
  case ended =>
    intro w' g hg
    by_cases hw : w' = w
    · apply hended g (hw ▸ hg)
    · rw [hothers w' hw] at hg
      have hgf : g ≠ f := by
        rintro rfl
        apply hfree w' hw (Pc.handled_of_ended hg)
      rw [hheap g hgf]
      apply h.ended w' g hg
  case started =>
    intro g hg
    by_cases hgf : g = f
    · rw [hgf] at hg ⊢
      apply hstarted hg
    · have hpc := pc_or_of_others hothers (hs g hgf) (ht g hgf)
      rw [started_congr hpc (by rw [hheap g hgf]), hheap g hgf]
      apply h.started g (hnext g hg hgf)

/-- No thread handles a fiber that has not been constructed. -/
theorem Claimed.not_handled (h : s.Claimed) {f : FiberId} (hf : s.next ≤ f) (w : ThreadId) :
  (s.worker w).pc.handled ≠ some f
  := by
  intro hpc
  exact Nat.not_lt_of_le hf ((h.valid w).fiber f (Pc.fiber?_of_handled hpc))

/-- Nobody executes a fiber that has not been constructed. -/
theorem Claimed.not_executing (h : s.Claimed) {f : FiberId} (hf : s.next ≤ f) (w : ThreadId) :
  (s.worker w).pc.executing ≠ some f
  := fun hpc => h.not_handled hf w (Pc.handled_of_executing hpc)

/-- The step of a thread that executes no fiber and leaves the fibers alone. -/
theorem Orderly.quiet (h : s.Orderly) (hclaimed : s.Claimed)
    (hothers : ∀ w' ≠ w, t.worker w' = s.worker w') (hheap : t.heap = s.heap)
    (hnext : t.next = s.next) (hs : (s.worker w).pc.executing = none)
    (ht : (t.worker w).pc.executing = none)
    (hhandled : ∀ g, (t.worker w).pc.handled = some g →
      (s.worker w).pc.handled = some g ∨ ∀ w' ≠ w, (s.worker w').pc.handled ≠ some g)
    (hended : ∀ g, (t.worker w).pc.ended = some g → (s.worker w).pc.ended = some g) :
  t.Orderly
  := by
  apply h.step (w := w) (f := s.next) hothers hhandled
  · exact fun w' _ => hclaimed.not_handled (Nat.le_refl _) w'
  · exact fun g _ => by rw [hheap]
  · exact fun g hg _ => hnext ▸ hg
  · rw [hs]
    exact fun g _ hg => by cases hg
  · rw [ht]
    exact fun g _ hg => by cases hg
  · intro g hg
    rw [hheap]
    apply h.ended w g (hended g hg)
  · exact fun hlt => absurd (hnext ▸ hlt) (Nat.lt_irrefl _)

/-- The thread moves on without executing a fiber. -/
theorem Orderly.move (h : s.Orderly) (hclaimed : s.Claimed)
    (hworker : t.worker = s.worker) (hheap : t.heap = s.heap) (hnext : t.next = s.next)
    {pc : Pc κ} (hs : (s.worker w).pc.executing = none) (ht : pc.executing = none)
    (hhandled : ∀ g, pc.handled = some g →
      (s.worker w).pc.handled = some g ∨ ∀ w' ≠ w, (s.worker w').pc.handled ≠ some g)
    (hended : ∀ g, pc.ended = some g → (s.worker w).pc.ended = some g) :
  (t.setPc w pc).Orderly
  := by
  have hothers : ∀ w' ≠ w, (t.setPc w pc).worker w' = s.worker w' := by
    intro w' hw
    rw [setPc_of_ne _ hw, hworker]
  apply h.quiet hclaimed hothers hheap hnext hs
  · rwa [setPc_self]
  · rwa [setPc_self]
  · rwa [setPc_self]

/-- The thread constructs a fiber, and executes none. -/
theorem Orderly.alloc (h : s.Orderly) (hclaimed : s.Claimed) (cb : Option (Code κ))
    {wk : Worker κ} (hs : (s.worker w).pc.executing = none) (ht : wk.pc.executing = none)
    (hhandled : ∀ g, wk.pc.handled = some g → g = s.next) (hended : wk.pc.ended = none) :
  Orderly { s with
    heap := Function.update s.heap s.next (Fiber.new cb)
    next := s.next + 1
    worker := Function.update s.worker w wk }
  := by
  have hfree : ∀ w', (s.worker w').pc.handled ≠ some s.next :=
    hclaimed.not_handled (Nat.le_refl _)
  refine h.step (w := w) (f := s.next) ?_ ?_ (fun w' _ => hfree w') ?_ ?_ ?_ ?_ ?_ ?_
  · exact fun w' hw => Function.update_of_ne hw _ _
  · intro g hg
    simp only [Function.update_self] at hg
    rw [hhandled g hg]
    exact .inr fun w' _ => hfree w'
  · exact fun g hg => Function.update_of_ne hg _ _
  · exact fun g hg hne => Nat.lt_of_le_of_ne (Nat.le_of_lt_succ hg) hne
  · rw [hs]
    exact fun g _ hg => by cases hg
  · simp only [Function.update_self, ht]
    exact fun g _ hg => by cases hg
  · simp only [Function.update_self, hended]
    exact fun g hg => by cases hg
  · intro _
    apply iff_of_false
    · apply not_started
      · intro w' hpc
        by_cases hw : w' = w
        · simp only [hw, Function.update_self, ht] at hpc
          cases hpc
        · simp only [Function.update_of_ne hw] at hpc
          apply hclaimed.not_executing (Nat.le_refl _) w' hpc
      · simp [Fiber.new]
    · simp [Fiber.new, Fiber.State.Resettable]

/-- A thread enters `run()` and constructs its idle fiber. -/
theorem Orderly.run (h : s.Orderly) (hclaimed : s.Claimed) (hstep : s.stepRun w = some t) :
  t.Orderly
  := by
  obtain ⟨hpc, rfl⟩ := stepRun_cases hstep
  apply h.alloc hclaimed <;> simp [hpc]

/-- It takes an entry from the queue. -/
theorem Orderly.scan (h : s.Orderly) (hclaimed : s.Claimed) (hstep : s.stepScan w = some t) :
  t.Orderly
  := by
  obtain ⟨hpc, ⟨-, rfl⟩ | ⟨ft, rest, -, rfl⟩⟩ := stepScan_cases hstep
  · apply h.move hclaimed rfl rfl rfl <;> simp [hpc]
  · apply h.move (t := { s with mFibers := rest }) hclaimed rfl rfl rfl <;> simp [hpc]

/-- The thread puts a callback into a fiber that no other thread handles. -/
theorem Orderly.reset (h : s.Orderly) {cb : Option (Code κ)} {pc : Pc κ}
    (hfree : ∀ w' ≠ w, (s.worker w').pc.handled ≠ some f)
    (hs : (s.worker w).pc.executing = none) (ht : pc.executing = none)
    (hhandled : ∀ g, pc.handled = some g → g = f) (hended : pc.ended = none) :
  ((s.set f (Fiber.new cb)).setPc w pc).Orderly
  := by
  refine h.step (w := w) (f := f) ?_ ?_ hfree ?_ ?_ ?_ ?_ ?_ ?_
  · exact fun w' hw => setPc_of_ne _ hw _
  · intro g hg
    rw [setPc_self] at hg
    rw [hhandled g hg]
    exact .inr hfree
  · exact fun g hg => Function.update_of_ne hg _ _
  · exact fun g hg _ => hg
  · rw [hs]
    exact fun g _ hg => by cases hg
  · rw [setPc_self, ht]
    exact fun g _ hg => by cases hg
  · rw [setPc_self, hended]
    exact fun g hg => by cases hg
  · intro _
    apply iff_of_false
    · apply not_started
      · intro w' hpc
        by_cases hw : w' = w
        · rw [hw, setPc_self, ht] at hpc
          cases hpc
        · rw [setPc_of_ne _ hw] at hpc
          apply hfree w' hw (Pc.handled_of_executing hpc)
      · simp [Workers.set, setPc, Fiber.new]
    · simp [Workers.set, setPc, Fiber.new, Fiber.State.Resettable]

/-- An assertion fails. -/
theorem Orderly.fail (h : s.Orderly) (a : Assertion) :
  (s.fail a).Orderly
  := ⟨h.single, h.ended, h.started⟩

/-- It chooses its idle fiber, or leaves the loop. -/
theorem Orderly.idleOrBreak (h : s.Orderly) (hclaimed : s.Claimed)
    {ft : Option (FiberAndThread κ)} (hpc : (s.worker w).pc = .dispatch ft)
    (hfree : (s.heap (s.worker w).idleFiber).mState ≠ .term →
      ∀ w' ≠ w, (s.worker w').pc.handled ≠ some (s.worker w).idleFiber) :
  (s.idleOrBreak w).Orderly
  := by
  unfold Workers.idleOrBreak
  split
  case isTrue => apply h.move hclaimed rfl rfl rfl <;> simp [hpc]
  case isFalse hterm =>
    apply h.move hclaimed rfl rfl rfl
    · simp [hpc]
    · simp
    · rintro g ⟨⟩
      exact .inr (hfree hterm)
    · simp

/-- It chooses a branch. -/
theorem Orderly.dispatch (h : s.Orderly) (hclaimed : s.Claimed)
    (hok : Unhandled (.dispatch w) s) (hstep : s.stepDispatch w = some t) :
  t.Orderly
  := by
  have hfree := hok w rfl
  obtain ⟨ft, hpc, hs'⟩ := stepDispatch_cases hstep
  rcases hs' with ⟨hft, rfl⟩ | ⟨f, thread, rfl, hfinished, rfl⟩ | ⟨c, thread, rfl, rfl⟩
  · apply h.idleOrBreak hclaimed hpc
    intro hterm
    apply hfree
    apply chooses_idle hpc hft hterm
  · apply h.move hclaimed rfl rfl rfl
    · simp [hpc]
    · simp
    · rintro g ⟨⟩
      exact .inr (hfree f (by simp [chooses, hpc, hfinished]))
    · simp
  · obtain ⟨f, hcb, ⟨hreset, hs'⟩ | ⟨-, hs'⟩⟩ | ⟨-, hs'⟩ := bindCb_cases s w c <;> rw [hs']
    · apply h.reset
      · apply hfree
        simp [chooses, hpc, hcb, hreset]
      · simp [hpc]
      · simp
      · simp [eq_comm]
      · simp
    · apply h.fail
    · apply h.alloc hclaimed <;> simp [hpc, eq_comm]

/-- It is counted as active. -/
theorem Orderly.count (h : s.Orderly) (hclaimed : s.Claimed) (hstep : s.stepCount w = some t) :
  t.Orderly
  := by
  obtain ⟨b, f, hpc, rfl⟩ := stepCount_cases hstep
  apply h.move hclaimed (increment_worker s b) (increment_heap s b) (by cases b <;> rfl) <;>
    simp [hpc]

/-- The step of a thread inside a fiber that it handles. -/
theorem Orderly.handle (h : s.Orderly) {fb : Fiber κ} {pc : Pc κ}
    (hs : (s.worker w).pc.handled = some f) (ht : pc.handled = some f ∨ pc.handled = none)
    (hended : pc.ended = none ∨ fb.mState ≠ .init)
    (hstarted : ((s.set f fb).setPc w pc).Started f ↔ ¬ fb.mState.Resettable) :
  ((s.set f fb).setPc w pc).Orderly
  := by
  have hpc : ∀ g, pc.handled = some g → g = f := by
    intro g hg
    obtain ht | ht := ht
    · exact Option.some.inj (hg.symm.trans ht)
    · cases ht.symm.trans hg
  refine h.step (w := w) (f := f) ?_ ?_ ?_ ?_ ?_ ?_ ?_ ?_ ?_
  · exact fun w' hw => setPc_of_ne _ hw _
  · intro g hg
    rw [setPc_self] at hg
    rw [hpc g hg]
    exact .inl hs
  · exact fun w' hw hw' => hw (h.single w' w f hw' hs)
  · exact fun g hg => Function.update_of_ne hg _ _
  · exact fun g hg _ => hg
  · intro g hg hexec
    exact hg (Option.some.inj ((Pc.handled_of_executing hexec).symm.trans hs))
  · intro g hg hexec
    rw [setPc_self] at hexec
    exact hg (hpc g (Pc.handled_of_executing hexec))
  · intro g hg
    rw [setPc_self] at hg
    obtain hended | hinit := hended
    · cases hended.symm.trans hg
    · rw [hpc g (Pc.handled_of_ended hg)]
      simpa [Workers.set, setPc] using hinit
  · intro _
    simpa [Workers.set, setPc] using hstarted

/-- The fiber is swapped in. -/
theorem Orderly.swapIn (h : s.Orderly) (hstep : s.stepSwapIn w = some t) :
  t.Orderly
  := by
  obtain ⟨b, f, hpc, ⟨-, rfl⟩ | rfl | rfl⟩ := stepSwapIn_cases hstep
  · apply h.fail
  · apply h.fail
  · apply h.handle
    · simp [hpc]
    · simp
    · simp
    · apply iff_of_true
      · left
        use w
        simp
      · simp [Fiber.State.Resettable]

/-- A call of the scheduler handles no fiber. -/
theorem Orderly.call (h : s.Orderly) (hclaimed : s.Claimed) (c : Call κ) :
  Orderly { s with toScheduler := s.toScheduler.call c }
  := by
  cases c with
  | scheduler fc thread => exact ⟨h.single, h.ended, h.started⟩
  | newFiber cb =>
      -- the fiber is new for every thread, so that any thread may stand for the caller
      have hfree := hclaimed.not_handled (Nat.le_refl _)
      have hheap : ∀ g ≠ s.next, Function.update s.heap s.next (Fiber.new cb) g = s.heap g :=
        fun g hg => Function.update_of_ne hg _ _
      constructor
      case single => apply h.single
      case ended =>
        intro w g hg
        have hne : g ≠ s.next := by
          rintro rfl
          apply hfree w (Pc.handled_of_ended hg)
        simp only [Scheduler.call, hheap g hne]
        apply h.ended w g hg
      case started =>
        intro g hg
        by_cases hne : g = s.next
        · rw [hne]
          apply iff_of_false
          · apply not_started
            · exact hclaimed.not_executing (Nat.le_refl _)
            · simp [Scheduler.call, Fiber.new]
          · simp [Scheduler.call, Fiber.new, Fiber.State.Resettable]
        · have hlt : g < s.next := Nat.lt_of_le_of_ne (Nat.le_of_lt_succ hg) hne
          have hg' : (s.toScheduler.call (.newFiber cb)).heap g = s.heap g := hheap g hne
          have hcongr := started_congr (s := s)
            (t := { s with toScheduler := s.toScheduler.call (.newFiber cb) })
            (fun _ => .inl rfl) (congrArg _ hg')
          rw [hcongr, h.started g hlt, hg']

/-- The end of a segment leaves the callback paused, or ended with the state that says so. -/
theorem Ending.write_cases (e : Ending κ) (fb : Fiber κ) :
  (∃ c, (e.write fb).2 = .suspended c) ∧ ¬ (e.write fb).1.mState.Resettable ∨
    (e.write fb).2 = .finished ∧ (e.write fb).1.mState.Finished
  := by
  cases e <;> simp [Ending.write, Fiber.State.Resettable]

theorem Ending.write_ne_init (e : Ending κ) (fb : Fiber κ) :
  (e.write fb).1.mState ≠ .init
  := by
  cases e <;> simp [Ending.write]

/-- A task ends or yields. -/
theorem Orderly.leave (h : s.Orderly) {e : Ending κ} (hstep : s.stepLeave w e = some t) :
  t.Orderly
  := by
  obtain ⟨b, f, hpc, rfl⟩ := stepLeave_cases hstep
  have hother : ∀ w' ≠ w, (s.worker w').pc.handled ≠ some f :=
    fun w' hw hw' => hw (h.single w' w f hw' (by simp [hpc]))
  apply h.handle
  · simp [hpc]
  · simp
  · exact .inr (Ending.write_ne_init e _)
  · obtain ⟨⟨c, hc⟩, hreset⟩ | ⟨hc, hfinished⟩ := Ending.write_cases e (s.heap f)
    · apply iff_of_true _ hreset
      exact .inr ⟨c, .inl ⟨w, b, by simp [hc]⟩⟩
    · apply iff_of_false _ (not_not.mpr hfinished.resettable)
      have hworker : ∀ w', (((s.set f (e.write (s.heap f)).1).setPc w
          (.leaving b f (e.write (s.heap f)).2)).worker w').pc.executing = some f → w' = w := by
        intro w' hw'
        by_contra hw
        rw [setPc_of_ne _ hw] at hw'
        exact hother w' hw (Pc.handled_of_executing hw')
      rintro (⟨w', hw'⟩ | ⟨c, ⟨w', b', hpc'⟩ | ⟨hnone, -⟩⟩)
      · obtain rfl := hworker w' (Pc.executing_of_running hw')
        simp at hw'
      · obtain rfl := hworker w' (by simp [hpc'])
        simp [hc] at hpc'
      · apply hnone w
        simp

/-- The fiber is swapped out. -/
theorem Orderly.swapOut (h : s.Orderly) (hclaimed : s.Claimed)
    (hstep : s.stepSwapOut w = some t) :
  t.Orderly
  := by
  obtain ⟨b, f, ctx, hpc, rfl⟩ := stepSwapOut_cases hstep
  have hother : ∀ w' ≠ w, (s.worker w').pc.handled ≠ some f :=
    fun w' hw hw' => hw (h.single w' w f hw' (by simp [hpc]))
  have hnone : ∀ w', (((s.set f ((s.heap f).swapOut ctx)).setPc w (.back b f)).worker
      w').pc.executing ≠ some f := by
    intro w' hw'
    by_cases hw : w' = w
    · simp [hw] at hw'
    · rw [setPc_of_ne _ hw] at hw'
      apply hother w' hw (Pc.handled_of_executing hw')
  have hlt : f < s.next := (hclaimed.valid w).fiber f (by simp [hpc])
  apply h.handle
  · simp [hpc]
  · simp
  · exact .inr (h.ended w f (by simp [hpc]))
  · have hafter : ((s.set f ((s.heap f).swapOut ctx)).setPc w (.back b f)).Started f ↔
        ∃ c, ctx = .suspended c := by
      constructor
      · rintro (⟨w', hw'⟩ | ⟨c, ⟨w', b', hpc'⟩ | ⟨-, hc⟩⟩)
        · exact absurd (Pc.executing_of_running hw') (hnone w')
        · exact absurd (by simp [hpc']) (hnone w')
        · use c
          simpa [setPc, Workers.set, Fiber.swapOut] using hc
      · rintro ⟨c, rfl⟩
        exact .inr ⟨c, .inr ⟨hnone, by simp [setPc, Workers.set, Fiber.swapOut]⟩⟩
    have hbefore : s.Started f ↔ ∃ c, ctx = .suspended c := by
      have hworker : ∀ w', (s.worker w').pc.executing = some f → w' = w :=
        fun w' hw' => h.single w' w f (Pc.handled_of_executing hw') (by simp [hpc])
      constructor
      · rintro (⟨w', hw'⟩ | ⟨c, ⟨w', b', hpc'⟩ | ⟨hnone, -⟩⟩)
        · obtain rfl := hworker w' (Pc.executing_of_running hw')
          simp [hpc] at hw'
        · obtain rfl := hworker w' (by simp [hpc'])
          exact ⟨c, (Pc.leaving.inj (hpc.symm.trans hpc')).2.2⟩
        · exact absurd (by simp [hpc]) (hnone w)
      · rintro ⟨c, rfl⟩
        exact .inr ⟨c, .inl ⟨w, b, hpc⟩⟩
    rw [hafter, ← hbefore]
    apply h.started f hlt

/-- The thread is no longer counted as active. -/
theorem Orderly.uncount (h : s.Orderly) (hclaimed : s.Claimed)
    (hstep : s.stepUncount w = some t) :
  t.Orderly
  := by
  obtain ⟨b, f, hpc, rfl⟩ := stepUncount_cases hstep
  have hheap : (s.decrement b).heap = s.heap := by cases b <;> rfl
  apply h.move hclaimed (decrement_worker s b) hheap (by cases b <;> rfl) <;> simp [hpc]

theorem Orderly.setCbFiber (h : s.Orderly) (f : Option FiberId) :
  (s.setCbFiber w f).Orderly
  := by
  have hpc (w' : ThreadId) : ((s.setCbFiber w f).worker w').pc = (s.worker w').pc := by
    by_cases hw : w' = w
    · simp [Workers.setCbFiber, hw]
    · rw [setCbFiber_of_ne _ hw]
  have hstarted (g : FiberId) : (s.setCbFiber w f).Started g ↔ s.Started g := by
    simp only [Started, Paused, hpc]
    exact Iff.rfl
  constructor
  case single => simpa only [hpc] using h.single
  case ended => exact fun w' g hg => h.ended w' g (hpc w' ▸ hg)
  case started => exact fun g hg => (hstarted g).trans (h.started g hg)

/-- A fiber that has started and is not executed is put on `HOLD`. -/
theorem Orderly.setHold (h : s.Orderly) (hclaimed : s.Claimed) {b : Branch}
    (hpc : (s.worker w).pc = .settle b f) (hfinished : ¬ (s.heap f).mState.Finished) :
  ((s.set f (s.heap f).setHold).setPc w .head).Orderly
  := by
  have hlt : f < s.next := (hclaimed.valid w).fiber f (by simp [hpc])
  have hinit := h.ended w f (by simp [hpc])
  have hreset : ¬ (s.heap f).mState.Resettable := by
    rintro (hterm | hexcept | hi)
    · exact hfinished (.inl hterm)
    · exact hfinished (.inr hexcept)
    · exact hinit hi
  apply h.handle
  · simp [hpc]
  · simp
  · simp
  · apply iff_of_true
    · have hcongr : ((s.set f (s.heap f).setHold).setPc w .head).Started f ↔ s.Started f := by
        apply started_congr
        · apply pc_or_of_others (s := s) (fun w' hw => setPc_of_ne _ hw _)
          · simp [hpc]
          · simp
        · simp [setPc, Workers.set, Fiber.setHold]
      rw [hcongr, h.started f hlt]
      apply hreset
    · simp [Fiber.setHold, Fiber.State.Resettable]

/-- It looks at the state of the fiber that has come back. -/
theorem Orderly.settle (h : s.Orderly) (hclaimed : s.Claimed) (hstep : s.stepSettle w = some t) :
  t.Orderly
  := by
  obtain ⟨b, f, hpc, hs'⟩ := stepSettle_cases hstep
  have hother : ∀ w' ≠ w, (s.worker w').pc.handled ≠ some f :=
    fun w' hw hw' => hw (h.single w' w f hw' (by simp [hpc]))
  rcases hs' with ⟨-, rfl⟩ | ⟨-, rfl⟩ | ⟨-, -, rfl⟩ | ⟨-, hfinished, rfl⟩
  · apply h.move hclaimed rfl rfl rfl <;> simp [hpc]
  · unfold holdUnlessFinished
    split
    case isTrue => apply h.move hclaimed rfl rfl rfl <;> simp [hpc]
    case isFalse hfinished => apply h.setHold hclaimed hpc hfinished
  · apply h.reset hother <;> simp [hpc]
  · have hswap : ((s.set f (s.heap f).setHold).setCbFiber w none).setPc w .head =
        ((s.set f (s.heap f).setHold).setPc w .head).setCbFiber w none := by
      simp [Workers.setCbFiber, setPc, Workers.set]
    rw [hswap]
    apply Orderly.setCbFiber
    apply h.setHold hclaimed hpc hfinished

/-- A fiber that is ready again is given back to the queue. -/
theorem Orderly.requeue (h : s.Orderly) (hclaimed : s.Claimed)
    (hstep : s.stepRequeue w = some t) :
  t.Orderly
  := by
  obtain ⟨b, f, t', hpc, rfl, hs'⟩ := stepRequeue_cases hstep
  rcases hs' with ⟨-, rfl⟩ | ⟨-, rfl⟩
  · apply h.quiet (w := w) hclaimed
    · intro w' hw
      rw [setPc_of_ne _ hw, setCbFiber_of_ne _ hw]
    · rfl
    · rfl
    · simp [hpc]
    · simp
    · simp
    · simp
  · apply h.move (t := { s with toScheduler := s.toScheduler.scheduler (some (.fiber f)) (-1) })
      hclaimed rfl rfl rfl <;> simp [hpc]

/-- Every step that chooses a fiber that is not handled. -/
theorem Orderly.act (h : s.Orderly) (hclaimed : s.Claimed) {a : Action κ}
    (hok : Unhandled a s) (hstep : act a s = some t) :
  t.Orderly
  := by
  cases a with
  | run w => apply h.run hclaimed hstep
  | scan w => apply h.scan hclaimed hstep
  | dispatch w => apply h.dispatch hclaimed hok hstep
  | count w => apply h.count hclaimed hstep
  | swapIn w => apply h.swapIn hstep
  | call w c =>
      obtain ⟨-, rfl⟩ := stepCall_cases hstep
      apply h.call hclaimed
  | leave w e => apply h.leave hstep
  | swapOut w => apply h.swapOut hclaimed hstep
  | uncount w => apply h.uncount hclaimed hstep
  | settle w => apply h.settle hclaimed hstep
  | requeue w => apply h.requeue hclaimed hstep
  | schedule c =>
      obtain rfl := Option.some.inj hstep
      apply h.call hclaimed
  | setStoping b =>
      obtain rfl := Option.some.inj hstep
      exact ⟨h.single, h.ended, h.started⟩
  | setAutoStop b =>
      obtain rfl := Option.some.inj hstep
      exact ⟨h.single, h.ended, h.started⟩

end Workers

end WbServer
