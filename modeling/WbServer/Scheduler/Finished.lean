import WbServer.Scheduler.Exclusive
import WbServer.Scheduler.Reuse

/-!
# Finished fibers

Before a `swap_in`, `run` tests that a fiber from the queue is neither `TERM` nor `EXCEPT`,
and puts a callback only into a new or a reset fiber. Of its idle fiber it tests only that
it is not `TERM`: if `idle` has thrown, the idle fiber is resumed behind the end of
`MainFunc`. `Workers.reaches_alive` shows that with one thread nothing else resumes a
finished fiber.
-/

namespace WbServer

variable {κ : Type}

open TrackedWorkers (OnlyWorker)

/-- A context behind the end of `MainFunc` is that of a finished fiber. -/
def Fiber.Consistent (f : Fiber κ) : Prop :=
  f.mCtx = .finished → f.mState.Finished

/-- A new fiber is not finished, and neither is its context. -/
theorem Fiber.new_consistent (cb : Option (Code κ)) :
  (Fiber.new cb).Consistent
  := nofun

/-- A segment that ends behind the end of `MainFunc` leaves the fiber finished. -/
theorem Ending.write_finished {e : Ending κ} {f : Fiber κ} (h : (e.write f).2 = .finished) :
  (e.write f).1.mState.Finished
  := by
  cases e <;> simp_all [Ending.write]

theorem Ending.write_mCtx (e : Ending κ) (f : Fiber κ) :
  (e.write f).1.mCtx = f.mCtx
  := by
  cases e <;> rfl

namespace Workers

/-- The fibers are consistent, and no thread has called `run`. -/
def aliveSystem (κ : Type) : Transition.System (Workers κ) (Action κ) where
  init s := Initial s ∧ ∀ f, (s.heap f).Consistent
  step := step

/-- The thread has nothing to execute. -/
def TakesIdle (w : ThreadId) (s : Workers κ) : Prop :=
  ∃ ft, (s.worker w).pc = .dispatch ft ∧ ∀ it, ft = some it → ¬ it.Runnable s.heap

/-- Where the idle branch is taken, `idle` has not thrown. -/
def IdleAlive (a : Action κ) (s : Workers κ) : Prop :=
  ∀ w, a = .dispatch w → s.TakesIdle w → (s.heap (s.worker w).idleFiber).mState ≠ .except

/-- A fiber that is resumed is `INIT`, `READY` or `HOLD`, and the end of `MainFunc` is not
reached. -/
structure Resumes (s : Workers κ) : Prop where
  enter : ∀ w b f, (s.worker w).pc = .enter b f →
    (s.heap f).mState = .init ∨ (s.heap f).mState = .ready ∨ (s.heap f).mState = .hold
  failed : s.failed ≠ some .neverReach

/-! ### The invariant -/

/-- What the steps of the thread `w₀` keep, as long as its `idle` does not throw. -/
structure Alive (w₀ : ThreadId) (s : Workers κ) : Prop where
  others : ∀ w ≠ w₀, (s.worker w).pc = .outside
  consistent : ∀ f, (s.heap f).Consistent
  entering : ∀ f, (s.worker w₀).pc.entering = some f → ¬ (s.heap f).mState.Finished
  running : ∀ f, (s.worker w₀).pc.running = some f → (s.heap f).mCtx ≠ .finished
  leaving : ∀ b f, (s.worker w₀).pc = .leaving b f .finished → (s.heap f).mState.Finished
  failed : s.failed ≠ some .neverReach

variable {w₀ : ThreadId} {s t : Workers κ}

/-- If the fibers are alive, no finished context is resumed. -/
theorem Alive.resumes (h : s.Alive w₀) (hclaimed : s.Claimed) :
  s.Resumes
  := by
  constructor
  case enter =>
    intro w b f hpc
    obtain rfl : w = w₀ := by
      by_contra hw
      simp [h.others w hw] at hpc
    have hentering : (s.worker w).pc.entering = some f := by simp [hpc]
    have hfinished := h.entering f hentering
    have hexec := hclaimed.entering w f hentering
    revert hfinished hexec
    cases (s.heap f).mState <;> simp
  case failed => apply h.failed

/-- With one thread in `run`, no thread chooses a fiber of another one. -/
theorem Alive.choosesFree (h : s.Alive w₀) {a : Action κ} (ha : OnlyWorker w₀ a) :
  ChoosesFree a s
  := by
  rintro w rfl f - w' hw
  obtain rfl := ha w rfl
  simp [h.others w' hw]

/-- What a step of the thread `w₀` writes apart from its place: consistent fibers. -/
structure Keeps (w₀ : ThreadId) (s t : Workers κ) : Prop where
  others : ∀ w ≠ w₀, t.worker w = s.worker w
  consistent : ∀ f, (t.heap f).Consistent
  failed : t.failed = s.failed

theorem Alive.keeps (h : s.Alive w₀) :
  Keeps w₀ s s
  where
  others _ _ := rfl
  consistent := h.consistent
  failed := rfl

/-- A change to a consistent fiber. -/
theorem consistent_update {heap : FiberId → Fiber κ} (h : ∀ f, (heap f).Consistent) {fb : Fiber κ}
    (hfb : fb.Consistent) (f g : FiberId) :
  (Function.update heap f fb g).Consistent
  := by
  by_cases hg : g = f
  · rw [hg, Function.update_self]
    apply hfb
  · rw [Function.update_of_ne hg]
    apply h g

theorem Keeps.set (h : Keeps w₀ s t) {fb : Fiber κ} (hfb : fb.Consistent) (f : FiberId) :
  Keeps w₀ s (t.set f fb)
  where
  others := h.others
  consistent := consistent_update h.consistent hfb f
  failed := h.failed

/-- A fiber that is put on `HOLD` is not finished, and neither is its context. -/
theorem Keeps.setHold (h : Keeps w₀ s t) {f : FiberId} (hf : ¬ (t.heap f).mState.Finished) :
  Keeps w₀ s (t.set f (t.heap f).setHold)
  := by
  apply h.set
  intro hctx
  exact absurd (h.consistent f hctx) hf

theorem Keeps.holdUnlessFinished (h : Keeps w₀ s t) (f : FiberId) :
  Keeps w₀ s (t.holdUnlessFinished f)
  := by
  unfold Workers.holdUnlessFinished
  split
  case isTrue => apply h
  case isFalse hf => apply h.setHold hf

theorem Keeps.forgetCbFiber (h : Keeps w₀ s t) :
  Keeps w₀ s (t.setCbFiber w₀ none)
  where
  others w hw := (setCbFiber_of_ne t hw none).trans (h.others w hw)
  consistent := h.consistent
  failed := h.failed

/-- The thread moves to another place. -/
theorem Alive.move (h : s.Alive w₀) (ht : Keeps w₀ s t) {pc : Pc κ}
    (hentering : ∀ f, pc.entering = some f → ¬ (t.heap f).mState.Finished)
    (hrunning : ∀ f, pc.running = some f → (t.heap f).mCtx ≠ .finished)
    (hleaving : ∀ b f, pc = .leaving b f .finished → (t.heap f).mState.Finished) :
  (t.setPc w₀ pc).Alive w₀
  := by
  constructor
  case others =>
    intro w hw
    rw [setPc_of_ne _ hw, ht.others w hw, h.others w hw]
  case consistent => apply ht.consistent
  case entering =>
    rw [setPc_self]
    apply hentering
  case running =>
    rw [setPc_self]
    apply hrunning
  case leaving =>
    rw [setPc_self]
    apply hleaving
  case failed =>
    intro hnever
    exact h.failed (ht.failed ▸ hnever)

/-- The thread moves to a place where it has chosen no fiber. -/
theorem Alive.goOn (h : s.Alive w₀) (ht : Keeps w₀ s t) {pc : Pc κ} (hchosen : pc.chosen = none) :
  (t.setPc w₀ pc).Alive w₀
  := by
  apply h.move ht
  · intro f hf
    cases hchosen.symm.trans (Pc.chosen_of_entering hf)
  · intro f hf
    cases hchosen.symm.trans (Pc.chosen_of_running hf)
  · rintro b f rfl
    cases hchosen

/-- The thread chooses a fiber that is not finished. -/
theorem Alive.choose (h : s.Alive w₀) (ht : Keeps w₀ s t) {b : Branch} {f : FiberId}
    (hf : ¬ (t.heap f).mState.Finished) :
  (t.setPc w₀ (.count b f)).Alive w₀
  := by
  apply h.move ht
  · rintro g ⟨⟩
    apply hf
  · simp
  · simp

/-- The thread constructs a fiber and moves to a place where it enters no other one. -/
theorem Alive.alloc (h : s.Alive w₀) {cb : Option (Code κ)} {wk : Worker κ}
    (hentering : ∀ f, wk.pc.entering = some f → f = s.next) (hrunning : wk.pc.running = none)
    (hleaving : ∀ b f ctx, wk.pc ≠ .leaving b f ctx) :
  Alive w₀ { s with
    heap := Function.update s.heap s.next (Fiber.new cb)
    next := s.next + 1
    worker := Function.update s.worker w₀ wk }
  := by
  constructor
  case others =>
    intro w hw
    simpa [hw] using h.others w hw
  case consistent => apply consistent_update h.consistent (Fiber.new_consistent cb)
  case entering =>
    intro f hf
    simp only [Function.update_self] at hf
    rw [hentering f hf]
    simp [Fiber.new]
  case running =>
    intro f hf
    simp only [Function.update_self] at hf
    cases hrunning.symm.trans hf
  case leaving =>
    intro b f hpc
    simp only [Function.update_self] at hpc
    exact absurd hpc (hleaving b f _)
  case failed => apply h.failed

theorem Alive.fail (h : s.Alive w₀) {a : Assertion} (ha : a ≠ .neverReach) :
  (s.fail a).Alive w₀
  where
  others := h.others
  consistent := h.consistent
  entering := h.entering
  running := h.running
  leaving := h.leaving
  failed hnever := ha (Option.some.inj hnever)

/-! ### The steps -/

/-- The thread enters `run()` and constructs its idle fiber. -/
theorem Alive.run (h : s.Alive w₀) (hstep : s.stepRun w₀ = some t) :
  t.Alive w₀
  := by
  obtain ⟨-, rfl⟩ := stepRun_cases hstep
  apply h.alloc
  · simp
  · simp
  · simp

/-- It takes an entry from the queue. -/
theorem Alive.scan (h : s.Alive w₀) (hstep : s.stepScan w₀ = some t) :
  t.Alive w₀
  := by
  obtain ⟨-, ⟨-, rfl⟩ | ⟨ft, rest, -, rfl⟩⟩ := stepScan_cases hstep
  · apply h.goOn h.keeps rfl
  · have hkeeps : Keeps w₀ s { s with mFibers := rest } := { h.keeps with }
    apply h.goOn hkeeps rfl

/-- It binds a callback to a fiber that is reset, or to a new one. -/
theorem Alive.bindCb (h : s.Alive w₀) (c : Code κ) :
  (s.bindCb w₀ c).Alive w₀
  := by
  obtain ⟨f, -, ⟨-, hs'⟩ | ⟨-, hs'⟩⟩ | ⟨-, hs'⟩ := bindCb_cases s w₀ c <;> rw [hs']
  · apply h.choose (h.keeps.set (Fiber.new_consistent _) f)
    simp [Workers.set, Fiber.new]
  · apply h.fail
    simp
  · apply h.alloc
    · intro f hf
      simpa [eq_comm] using hf
    · simp
    · simp

/-- The branches test the state of the fiber, with the help of the condition. -/
theorem Alive.dispatch (h : s.Alive w₀) (hok : s.IdleAlive (.dispatch w₀))
    (hstep : s.stepDispatch w₀ = some t) :
  t.Alive w₀
  := by
  obtain ⟨ft, hpc, ⟨hft, rfl⟩ | ⟨f, _, -, hfinished, rfl⟩ | ⟨c, _, -, rfl⟩⟩ :=
    stepDispatch_cases hstep
  · have hexcept := hok w₀ rfl ⟨ft, hpc, hft⟩
    unfold Workers.idleOrBreak
    split
    case isTrue => apply h.goOn h.keeps rfl
    case isFalse hterm => apply h.choose h.keeps (not_or.mpr ⟨hterm, hexcept⟩)
  · apply h.choose h.keeps hfinished
  · apply h.bindCb

/-- It is counted as active. -/
theorem Alive.count (h : s.Alive w₀) (hstep : s.stepCount w₀ = some t) :
  t.Alive w₀
  := by
  obtain ⟨b, f, hpc, rfl⟩ := stepCount_cases hstep
  have hkeeps : Keeps w₀ s (s.increment b) := by
    cases b <;> exact { h.keeps with }
  apply h.move hkeeps
  · rintro g ⟨⟩
    rw [increment_heap]
    apply h.entering f (by simp [hpc])
  · simp
  · simp

/-- The context of a fiber that is not finished is not behind the end of `MainFunc`. -/
theorem Alive.swapIn (h : s.Alive w₀) (hclaimed : s.Claimed) (hstep : s.stepSwapIn w₀ = some t) :
  t.Alive w₀
  := by
  unfold stepSwapIn at hstep
  split at hstep
  case h_1 b f hpc =>
    have hentering : (s.worker w₀).pc.entering = some f := by simp [hpc]
    have hctx : (s.heap f).mCtx ≠ .finished :=
      fun hctx => h.entering f hentering (h.consistent f hctx)
    have hfinished : (s.heap f).mCtx.isFinished = false := by
      cases hc : (s.heap f).mCtx <;> simp_all [Fiber.Context.isFinished]
    rw [Fiber.swapIn_eq_some.mpr ⟨hclaimed.entering w₀ f hentering, rfl⟩] at hstep
    simp only [hfinished] at hstep
    obtain rfl := Option.some.inj hstep
    have hexec : Fiber.Consistent { s.heap f with mState := .exec } :=
      fun hc => absurd hc hctx
    apply h.move (h.keeps.set hexec f)
    · simp
    · rintro g ⟨⟩
      simpa [Workers.set] using hctx
    · simp
  case h_2 => cases hstep

/-- A call of the scheduler finishes no fiber. -/
theorem Alive.call (h : s.Alive w₀) (hclaimed : s.Claimed) (c : Call κ) :
  Alive w₀ { s with toScheduler := s.toScheduler.call c }
  := by
  cases c with
  | scheduler fc thread => exact { h with }
  | newFiber cb =>
      have hold : ∀ f, (s.worker w₀).pc.fiber? = some f →
          Function.update s.heap s.next (Fiber.new cb) f = s.heap f := by
        intro f hf
        exact Function.update_of_ne (Nat.ne_of_lt ((hclaimed.valid w₀).fiber f hf)) _ _
      constructor
      case others => apply h.others
      case consistent => apply consistent_update h.consistent (Fiber.new_consistent cb)
      case entering =>
        intro f hf
        simp only [Scheduler.call, hold f (Pc.fiber?_of_chosen (Pc.chosen_of_entering hf))]
        apply h.entering f hf
      case running =>
        intro f hf
        simp only [Scheduler.call, hold f (Pc.fiber?_of_chosen (Pc.chosen_of_running hf))]
        apply h.running f hf
      case leaving =>
        intro b f hpc
        simp only [Scheduler.call, hold f (by simp [show (s.worker w₀).pc = _ from hpc])]
        apply h.leaving b f hpc
      case failed => apply h.failed

/-- A task ends or yields, and the context of its fiber follows. -/
theorem Alive.leave (h : s.Alive w₀) {e : Ending κ} (hstep : s.stepLeave w₀ e = some t) :
  t.Alive w₀
  := by
  obtain ⟨b, f, hpc, rfl⟩ := stepLeave_cases hstep
  have hctx : (e.write (s.heap f)).1.mCtx ≠ .finished := by
    rw [Ending.write_mCtx]
    apply h.running f (by simp [hpc])
  apply h.move (h.keeps.set (fun hc => absurd hc hctx) f)
  · simp
  · simp
  · intro b' g hg
    obtain ⟨-, rfl, hfinished⟩ := Pc.leaving.inj hg
    simpa [Workers.set] using Ending.write_finished hfinished

/-- The fiber is swapped out. -/
theorem Alive.swapOut (h : s.Alive w₀) (hstep : s.stepSwapOut w₀ = some t) :
  t.Alive w₀
  := by
  obtain ⟨b, f, ctx, hpc, rfl⟩ := stepSwapOut_cases hstep
  have hfb : ((s.heap f).swapOut ctx).Consistent := by
    rintro rfl
    exact h.leaving b f hpc
  apply h.goOn (h.keeps.set hfb f) rfl

theorem Alive.uncount (h : s.Alive w₀) (hstep : s.stepUncount w₀ = some t) :
  t.Alive w₀
  := by
  obtain ⟨b, f, hpc, rfl⟩ := stepUncount_cases hstep
  have hkeeps : Keeps w₀ s (s.decrement b) := by
    cases b <;> exact { h.keeps with }
  apply h.goOn hkeeps rfl

/-- It looks at the state of the fiber that has come back. -/
theorem Alive.settle (h : s.Alive w₀) (hstep : s.stepSettle w₀ = some t) :
  t.Alive w₀
  := by
  obtain ⟨b, f, hpc, ⟨-, rfl⟩ | ⟨-, rfl⟩ | ⟨-, -, rfl⟩ | ⟨-, hfinished, rfl⟩⟩ :=
    stepSettle_cases hstep
  · apply h.goOn h.keeps rfl
  · apply h.goOn (h.keeps.holdUnlessFinished f) rfl
  · apply h.goOn (h.keeps.set (Fiber.new_consistent _) f) rfl
  · apply h.goOn (h.keeps.setHold hfinished).forgetCbFiber rfl

/-- A fiber that is ready again is not finished. -/
theorem Alive.requeue (h : s.Alive w₀) (hstep : s.stepRequeue w₀ = some t) :
  t.Alive w₀
  := by
  obtain ⟨b, f, t, -, rfl, hs'⟩ := stepRequeue_cases hstep
  have hkeeps : Keeps w₀ s
      { s with toScheduler := s.toScheduler.scheduler (some (.fiber f)) (-1) } := { h.keeps with }
  obtain ⟨-, rfl⟩ | ⟨-, rfl⟩ := hs'
  · apply h.goOn hkeeps.forgetCbFiber rfl
  · apply h.goOn hkeeps rfl

/-- Every step of the thread, as long as its idle fiber is alive. -/
theorem Alive.act (h : s.Alive w₀) (hclaimed : s.Claimed) {a : Action κ}
    (hworker : OnlyWorker w₀ a) (hok : s.IdleAlive a) (hstep : act a s = some t) :
  t.Alive w₀
  := by
  cases a with
  | run w =>
      obtain rfl := hworker w rfl
      apply h.run hstep
  | scan w =>
      obtain rfl := hworker w rfl
      apply h.scan hstep
  | dispatch w =>
      obtain rfl := hworker w rfl
      apply h.dispatch hok hstep
  | count w =>
      obtain rfl := hworker w rfl
      apply h.count hstep
  | swapIn w =>
      obtain rfl := hworker w rfl
      apply h.swapIn hclaimed hstep
  | call w c =>
      obtain ⟨-, rfl⟩ := stepCall_cases hstep
      apply h.call hclaimed
  | leave w e =>
      obtain rfl := hworker w rfl
      apply h.leave hstep
  | swapOut w =>
      obtain rfl := hworker w rfl
      apply h.swapOut hstep
  | uncount w =>
      obtain rfl := hworker w rfl
      apply h.uncount hstep
  | settle w =>
      obtain rfl := hworker w rfl
      apply h.settle hstep
  | requeue w =>
      obtain rfl := hworker w rfl
      apply h.requeue hstep
  | schedule c =>
      obtain rfl := Option.some.inj hstep
      apply h.call hclaimed
  | setStoping b =>
      obtain rfl := Option.some.inj hstep
      exact { h with }
  | setAutoStop b =>
      obtain rfl := Option.some.inj hstep
      exact { h with }

/-- In every state that is reached under the condition. -/
theorem reaches_alive_claimed
    (h : (aliveSystem κ).Reaches (fun a s => OnlyWorker w₀ a ∧ s.IdleAlive a) s) :
  s.Alive w₀ ∧ s.Claimed
  := by
  apply h.invariant
  · rintro s ⟨hinit, hconsistent⟩
    constructor
    · constructor
      case others => exact fun w _ => hinit.outside w
      case consistent => apply hconsistent
      case entering => simp [hinit.outside w₀]
      case running => simp [hinit.outside w₀]
      case leaving => simp [hinit.outside w₀]
      case failed => simp [hinit.failed]
    · apply reaches_claimed (.init hinit)
  · rintro a s s' ⟨hs, hclaimed⟩ ⟨hworker, hok⟩ hstep
    simp only [aliveSystem, step] at hstep
    split at hstep
    · cases hstep
    · constructor
      · apply hs.act hclaimed hworker hok hstep
      · apply hclaimed.act (hs.choosesFree hworker) hstep

/-- With one thread in `run`, and as long as the idle branch is not taken behind an exception
of `idle`, each fiber that is resumed is `INIT`, `READY` or `HOLD`, and the end of `MainFunc`
is not reached. -/
theorem reaches_resumes
    (h : (aliveSystem κ).Reaches (fun a s => OnlyWorker w₀ a ∧ s.IdleAlive a) s) :
  s.Resumes
  := by
  obtain ⟨halive, hclaimed⟩ := reaches_alive_claimed h
  apply halive.resumes hclaimed

/-- Thread `1` finds nothing to do and executes a segment of `idle` that ends in this way;
then it finds nothing to do again. -/
def idles (e : Ending ℕ) : List (Action ℕ) :=
  [.run 1, .scan 1, .dispatch 1, .count 1, .swapIn 1, .leave 1 e, .swapOut 1, .uncount 1,
    .settle 1, .scan 1]

theorem empty_alive :
  (aliveSystem ℕ).init empty
  := ⟨empty_initial, fun _ => Fiber.new_consistent _⟩

/-- `idle` yields hold, and is resumed. -/
theorem reaches_resumes_idle :
  let s := after (idles (.yeidToHold .idle) ++ [.dispatch 1, .count 1])
  (s.worker 1).pc = .enter .idle 0 ∧ (s.heap 0).mState = .hold ∧ s.Resumes
  := by
  let ok : Action ℕ → Workers ℕ → Prop := fun a s => OnlyWorker 1 a ∧ s.IdleAlive a
  have hempty : (aliveSystem ℕ).Reaches ok empty := .init empty_alive
  have hsteps : ∀ as : List (Action ℕ), (∀ a ∈ as, OnlyWorker 1 a ∧ ∀ w, a ≠ .dispatch w) →
      ∀ a ∈ as, ∀ s, ok a s :=
    fun as has a ha s => ⟨(has a ha).1, fun w hw => absurd hw ((has a ha).2 w)⟩
  have hdispatch : OnlyWorker 1 (.dispatch 1 : Action ℕ) := by
    simp [OnlyWorker, Action.worker?]
  have hscanned : (aliveSystem ℕ).Reaches ok (after [.run 1, .scan 1]) := by
    apply hempty.exec [.run 1, .scan 1] (hsteps _ _) rfl
    simp [OnlyWorker, Action.worker?]
  have hinit : (after [.run 1, .scan 1]).IdleAlive (.dispatch 1) := by
    rintro w ⟨⟩ -
    decide
  have hdispatched : (aliveSystem ℕ).Reaches ok (after [.run 1, .scan 1, .dispatch 1]) :=
    hscanned.step ⟨hdispatch, hinit⟩ rfl
  have hheld : (aliveSystem ℕ).Reaches ok (after (idles (.yeidToHold .idle))) := by
    apply hdispatched.exec [.count 1, .swapIn 1, .leave 1 (.yeidToHold .idle), .swapOut 1,
      .uncount 1, .settle 1, .scan 1] (hsteps _ _) rfl
    simp [OnlyWorker, Action.worker?]
  have hhold : (after (idles (.yeidToHold .idle))).IdleAlive (.dispatch 1) := by
    rintro w ⟨⟩ -
    decide
  have hchosen : (aliveSystem ℕ).Reaches ok
      (after (idles (.yeidToHold .idle) ++ [.dispatch 1])) :=
    hheld.step ⟨hdispatch, hhold⟩ rfl
  have hentered : (aliveSystem ℕ).Reaches ok
      (after (idles (.yeidToHold .idle) ++ [.dispatch 1, .count 1])) := by
    apply hchosen.exec [.count 1] (hsteps _ _) rfl
    simp [OnlyWorker, Action.worker?]
  exact ⟨rfl, rfl, reaches_resumes hentered⟩

/-- If `idle` throws, its fiber is resumed in the state `EXCEPT`, and the end of `MainFunc`
is reached. -/
theorem idle_resumed_finished :
  (∃ s, (aliveSystem ℕ).Reaches (fun a _ => OnlyWorker 1 a) s ∧ ¬ s.Resumes ∧
      (s.worker 1).pc = .enter .idle 0 ∧ (s.heap 0).mState = .except) ∧
    ∃ s, (aliveSystem ℕ).Reaches (fun a _ => OnlyWorker 1 a) s ∧ ¬ s.Resumes ∧
      s.failed = some .neverReach
  := by
  have hempty : (aliveSystem ℕ).Reaches (fun a _ => OnlyWorker 1 a) empty := .init empty_alive
  constructor
  · use after (idles .throw ++ [.dispatch 1, .count 1])
    refine ⟨hempty.exec (idles .throw ++ [.dispatch 1, .count 1]) ?_ rfl, ?_, rfl, rfl⟩
    · simp [idles, OnlyWorker, Action.worker?]
    · intro h
      exact absurd (h.enter 1 .idle 0 rfl) (by decide)
  · use after (idles .throw ++ [.dispatch 1, .count 1, .swapIn 1])
    refine ⟨hempty.exec (idles .throw ++ [.dispatch 1, .count 1, .swapIn 1]) ?_ rfl, ?_, rfl⟩
    · simp [idles, OnlyWorker, Action.worker?]
    · exact fun h => h.failed rfl

end Workers

end WbServer
