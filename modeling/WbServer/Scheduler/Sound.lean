import WbServer.Scheduler.Drain

/-!
# The run loop fails no assertion

With one worker and the `idle` of the base class, `swap_in` never finds `EXEC`, `reset` is
only called in the states it allows, and no fiber is resumed behind the end of `MainFunc`:
`RunState.Sound` and `RunState.CbIdle` are kept by every iteration, and the loop does not
abort (`RunState.Sound.loop`).

If the tasks only schedule callbacks and end their segments by yielding ready, returning or
throwing (`Segment.Plain`), a fiber is suspended only while it is queued
(`RunState.Queues`), and the loop returns with an empty queue.
-/

namespace WbServer

variable {κ : Type}

/-! ### Segments -/

/-- The code that a fiber executes when it is resumed. -/
def Fiber.code? (fb : Fiber κ) : Option (Code κ) :=
  match fb.mCtx with
  | .entry => fb.mCb
  | .suspended c => some c
  | .finished => none

/-- The segment that the fiber `f` executes when it is resumed; an empty callback throws. -/
def Fiber.segment (behave : Behaviour κ) (f : FiberId) (fb : Fiber κ) : Segment κ :=
  match fb.code? with
  | some c => behave f c
  | none => { calls := [], ending := .throw }

/-- A segment that only schedules callbacks, for any thread, and does not end on `HOLD`. -/
structure Segment.Plain (seg : Segment κ) : Prop where
  calls : ∀ call ∈ seg.calls, ∃ c, call = .scheduler (some (.cb c)) (-1)
  ending : ∀ rest, seg.ending ≠ .yeidToHold rest

theorem Fiber.segment_plain {behave : Behaviour κ} (h : ∀ f c, (behave f c).Plain) (f : FiberId)
    (fb : Fiber κ) :
  (fb.segment behave f).Plain
  := by
  unfold Fiber.segment
  split
  · apply h
  · constructor <;> simp

/-- A context is finished only with its fiber. -/
theorem Ending.finished_of_ctx {e : Ending κ} {fb : Fiber κ}
    (h : (e.apply fb).mCtx = .finished) :
  (e.apply fb).mState.Finished
  := by
  cases e with
  | yieldToReady rest => cases h
  | yeidToHold rest => cases h
  | ret => exact .inl rfl
  | throw => exact .inr rfl

namespace RunState

/-! ### What a switch does to the state -/

/-- The counter and the flags that `run` does not write on its own. -/
structure Frame (s s' : RunState κ) : Prop where
  active : s'.mActiveThreadCount = s.mActiveThreadCount
  stoping : s'.mStoping = s.mStoping
  autoStop : s'.mAutoStop = s.mAutoStop

theorem Frame.refl (s : RunState κ) :
  Frame s s
  := ⟨rfl, rfl, rfl⟩

/-- Two parts of an iteration. -/
theorem Frame.trans {s t u : RunState κ} (h : Frame s t) (h' : Frame t u) :
  Frame s u
  := ⟨h'.active.trans h.active, h'.stoping.trans h.stoping, h'.autoStop.trans h.autoStop⟩

theorem Frame.set {s t : RunState κ} (h : Frame s t) (f : FiberId) (fb : Fiber κ) :
  Frame s (t.set f fb)
  := ⟨h.active, h.stoping, h.autoStop⟩

/-- A call of the scheduler. -/
theorem Frame.schedule {s t : RunState κ} (h : Frame s t) (fc : Option (Task κ)) (thread : ℤ) :
  Frame s (t.schedule fc thread)
  := ⟨h.active, h.stoping, h.autoStop⟩

theorem Frame.setCbFiber {s t : RunState κ} (h : Frame s t) (f : Option FiberId) :
  Frame s (t.setCbFiber f)
  := ⟨h.active, h.stoping, h.autoStop⟩

theorem Frame.log {s t : RunState κ} (h : Frame s t) (e : Event κ) :
  Frame s (t.log e)
  := ⟨h.active, h.stoping, h.autoStop⟩

theorem Frame.leave {s t : RunState κ} (h : Frame s t) (e : Ending κ) :
  Frame s (t.leave e)
  := ⟨h.active, h.stoping, h.autoStop⟩

/-- An entry has been taken from the queue before. -/
theorem Frame.dequeued {s t : RunState κ} {rest : List (FiberAndThread κ)}
    (h : Frame { s with mFibers := rest } t) :
  Frame s t
  := ⟨h.active, h.stoping, h.autoStop⟩

/-- What the calls of a task do. -/
structure Called (calls : List (Call κ)) (s s' : RunState κ) : Prop where
  heap : ∀ g, s'.heap g = s.heap g ∨ s.next ≤ g ∧ ∃ cb, s'.heap g = Fiber.new cb
  next : s.next ≤ s'.next
  queue : ∃ es, s'.mFibers = s.mFibers ++ es ∧
    ∀ it ∈ es, .scheduler (some it.task) it.thread ∈ calls
  idleFiber : s'.idleFiber = s.idleFiber
  cbFiber : s'.cbFiber = s.cbFiber
  frame : Frame s s'

theorem called_call (c : Call κ) (s : RunState κ) :
  Called [c] s (s.call c)
  := by
  cases c with
  | scheduler fc thread =>
      constructor
      case heap => exact fun _ => .inl rfl
      case next => apply Nat.le_refl
      case idleFiber => rfl
      case cbFiber => rfl
      case frame => exact ⟨rfl, rfl, rfl⟩
      case queue =>
        use Scheduler.entries s.next fc thread
        constructor
        · apply Scheduler.schedulerNolock_eq
        · intro it hit
          obtain ⟨rfl, rfl, -⟩ := Scheduler.mem_entries hit
          simp
  | newFiber cb =>
      constructor
      case next => apply Nat.le_succ
      case idleFiber => rfl
      case cbFiber => rfl
      case frame => exact ⟨rfl, rfl, rfl⟩
      case queue => exact ⟨[], by simp [call, newFiber]⟩
      case heap =>
        intro g
        by_cases hg : g = s.next
        · exact .inr ⟨Nat.le_of_eq hg.symm, cb, by simp [call, newFiber, hg]⟩
        · exact .inl (Function.update_of_ne hg _ _)

/-- The calls of a task, one after the other. -/
theorem called_calls (calls : List (Call κ)) (s : RunState κ) :
  Called calls s (calls.foldl call s)
  := by
  induction calls generalizing s with
  | nil => exact ⟨fun _ => .inl rfl, le_rfl, ⟨[], by simp⟩, rfl, rfl, .refl s⟩
  | cons c calls ih =>
      have hc := called_call c s
      have hcs := ih (s.call c)
      rw [List.foldl_cons]
      constructor
      case next => apply le_trans hc.next hcs.next
      case idleFiber => rw [hcs.idleFiber, hc.idleFiber]
      case cbFiber => rw [hcs.cbFiber, hc.cbFiber]
      case frame => apply hc.frame.trans hcs.frame
      case heap =>
        intro g
        obtain hg | ⟨hg, hnew⟩ := hcs.heap g
        · rw [hg]
          apply hc.heap g
        · exact .inr ⟨le_trans hc.next hg, hnew⟩
      case queue =>
        obtain ⟨es, hes, hmem⟩ := hc.queue
        obtain ⟨es', hes', hmem'⟩ := hcs.queue
        use es ++ es'
        constructor
        · rw [hes', hes, List.append_assoc]
        · intro it hit
          obtain hit | hit := List.mem_append.mp hit
          · simpa using .inl (List.mem_singleton.mp (hmem it hit))
          · exact List.mem_cons_of_mem _ (hmem' it hit)

/-- What a switch into the fiber `f` and back does, with the segment executed. -/
structure Switched (f : FiberId) (seg : Segment κ) (s s' : RunState κ) : Prop where
  self : s'.heap f = seg.ending.apply { s.heap f with mState := .exec }
  other : ∀ g ≠ f, s'.heap g = s.heap g ∨ s.next ≤ g ∧ ∃ cb, s'.heap g = Fiber.new cb
  touches : Touches f s s'
  queue : ∃ es, s'.mFibers = s.mFibers ++ es ∧
    ∀ it ∈ es, .scheduler (some it.task) it.thread ∈ seg.calls
  idleFiber : s'.idleFiber = s.idleFiber
  cbFiber : s'.cbFiber = s.cbFiber
  frame : Frame s s'

/-- The state `t` in which the code of the fiber `f` starts after `swap_in`. -/
structure Entered (f : FiberId) (s t : RunState κ) : Prop where
  heap : t.heap = Function.update s.heap f { s.heap f with mState := .exec }
  this : t.tFiber = f
  next : t.next = s.next
  queue : t.mFibers = s.mFibers
  idleFiber : t.idleFiber = s.idleFiber
  cbFiber : t.cbFiber = s.cbFiber
  frame : Frame s t
  touches : Touches f s t

theorem entered_swapIn (f : FiberId) (s : RunState κ) :
  Entered f s ((s.set f { s.heap f with mState := .exec }).setThis f)
  where
  heap := rfl
  this := rfl
  next := rfl
  queue := rfl
  idleFiber := rfl
  cbFiber := rfl
  frame := ⟨rfl, rfl, rfl⟩
  touches := (Touches.set f _ s).trans (Touches.setThis f f _)

theorem Entered.log {f : FiberId} {s t : RunState κ} (h : Entered f s t) (e : Execution κ) :
  Entered f s (t.log (.segment e))
  := by
  have htouch : Touches f t (t.log (.segment e)) :=
    { Touches.refl f t with accounts := fun cs hs => accounts_log_segment cs e hs }
  exact ⟨h.heap, h.this, h.next, h.queue, h.idleFiber, h.cbFiber, h.frame.log _,
    h.touches.trans htouch⟩

/-- The fiber makes its calls and ends its segment. -/
theorem Entered.leave {f : FiberId} {s t : RunState κ} (h : Entered f s t) (hlt : f < s.next)
    (seg : Segment κ) :
  Switched f seg s ((seg.calls.foldl call t).leave seg.ending)
  := by
  have hcalls := called_calls seg.calls t
  have hthis : (seg.calls.foldl call t).tFiber = f := by rw [calls_tFiber, h.this]
  have hleave : ((seg.calls.foldl call t).leave seg.ending).heap =
      Function.update (seg.calls.foldl call t).heap f
        (seg.ending.apply ((seg.calls.foldl call t).heap f)) := by
    rw [← hthis]
    rfl
  constructor
  case self =>
    have hf : (seg.calls.foldl call t).heap f = { s.heap f with mState := .exec } := by
      obtain hf | ⟨hf, -⟩ := hcalls.heap f
      · rw [hf, h.heap, Function.update_self]
      · exact absurd (h.next ▸ hf) (Nat.not_le_of_lt hlt)
    rw [hleave, Function.update_self, hf]
  case other =>
    intro g hg
    rw [hleave, Function.update_of_ne hg]
    obtain hcall | hcall := hcalls.heap g
    · rw [hcall, h.heap, Function.update_of_ne hg]
      exact .inl rfl
    · exact .inr (h.next ▸ hcall)
  case touches =>
    apply h.touches.trans
    apply (Touches.calls f seg.calls t).trans
    apply Touches.leave hthis
  case queue => exact h.queue ▸ hcalls.queue
  case idleFiber => exact hcalls.idleFiber.trans h.idleFiber
  case cbFiber => exact hcalls.cbFiber.trans h.cbFiber
  case frame => apply (h.frame.trans hcalls.frame).leave

/-- A fiber that is not finished is resumed and switches back. -/
theorem Entered.resume (behave : Behaviour κ) {f : FiberId} {s t : RunState κ}
    (h : Entered f s t) (hlt : f < s.next) (hctx : (s.heap f).mCtx ≠ .finished) :
  ∃ s', t.resume behave f = some s' ∧ Switched f ((s.heap f).segment behave f) s s'
  := by
  have hself : t.heap f = { s.heap f with mState := .exec } := by
    rw [h.heap, Function.update_self]
  have hsegment : ∀ c, (s.heap f).code? = some c →
      Switched f ((s.heap f).segment behave f) s (t.segment behave f c) := by
    intro c hc
    have hseg : (s.heap f).segment behave f = behave t.tFiber c := by
      simp [Fiber.segment, hc, h.this]
    rw [hseg]
    apply (h.log _).leave hlt
  unfold RunState.resume
  split
  case h_1 hentry =>
    rw [hself] at hentry
    split
    case h_1 c hcb =>
      rw [hself] at hcb
      have hcode : (s.heap f).code? = some c := by
        unfold Fiber.code?
        rw [hentry, hcb]
      exact ⟨_, rfl, hsegment c hcode⟩
    case h_2 hcb =>
      rw [hself] at hcb
      have hseg : (s.heap f).segment behave f = { calls := [], ending := .throw } := by
        unfold Fiber.segment Fiber.code?
        rw [hentry, hcb]
      rw [hseg]
      exact ⟨_, rfl, h.leave hlt { calls := [], ending := .throw }⟩
  case h_2 c hsuspended =>
    rw [hself] at hsuspended
    have hcode : (s.heap f).code? = some c := by
      unfold Fiber.code?
      rw [hsuspended]
    exact ⟨_, rfl, hsegment c hcode⟩
  case h_3 hfinished =>
    rw [hself] at hfinished
    apply absurd hfinished hctx

/-- A fiber that is neither executing nor finished is switched into and back. -/
theorem swapIn_switched (behave : Behaviour κ) {f : FiberId} {s : RunState κ} (hlt : f < s.next)
    (hexec : (s.heap f).mState ≠ .exec) (hctx : (s.heap f).mCtx ≠ .finished) :
  ∃ s', s.swapIn behave f = some s' ∧ Switched f ((s.heap f).segment behave f) s s'
  := by
  rw [swapIn, Fiber.swapIn_eq_some.mpr ⟨hexec, rfl⟩, Option.bind_some]
  apply (entered_swapIn f s).resume behave hlt hctx

/-- A fiber that can be resumed runs its next segment and comes back. -/
theorem swapInActive_switched (behave : Behaviour κ) {f : FiberId} {s : RunState κ}
    (hlt : f < s.next) (hexec : (s.heap f).mState ≠ .exec) (hctx : (s.heap f).mCtx ≠ .finished) :
  ∃ s', s.swapInActive behave f = some s' ∧ Switched f ((s.heap f).segment behave f) s s'
  := by
  obtain ⟨t, ht, h⟩ := swapIn_switched behave
    (s := { s with mActiveThreadCount := s.mActiveThreadCount + 1 }) hlt hexec hctx
  refine ⟨_, by rw [swapInActive, ht]; rfl, ?_⟩
  have hactive : t.mActiveThreadCount - 1 = s.mActiveThreadCount := by
    rw [h.frame.active]
    rfl
  exact ⟨h.self, h.other, { h.touches with }, h.queue, h.idleFiber, h.cbFiber,
    ⟨hactive, h.frame.stoping, h.frame.autoStop⟩⟩

/-- So does the idle fiber. -/
theorem swapInIdle_switched (behave : Behaviour κ) {f : FiberId} {s : RunState κ}
    (hlt : f < s.next) (hexec : (s.heap f).mState ≠ .exec) (hctx : (s.heap f).mCtx ≠ .finished) :
  ∃ s', s.swapInIdle behave f = some s' ∧ Switched f ((s.heap f).segment behave f) s s'
  := by
  obtain ⟨t, ht, h⟩ := swapIn_switched behave
    (s := { s with mIdleThreadCount := s.mIdleThreadCount + 1 }) hlt hexec hctx
  refine ⟨_, by rw [swapInIdle, ht]; rfl, ?_⟩
  exact ⟨h.self, h.other, { h.touches with }, h.queue, h.idleFiber, h.cbFiber,
    ⟨h.frame.active, h.frame.stoping, h.frame.autoStop⟩⟩

/-! ### The invariants -/

/-- A fiber behind the end of `MainFunc` is finished, and the idle fiber has not been
started or has returned. -/
structure Sound (s : RunState κ) : Prop where
  queue : s.Valid
  finished : ∀ f, (s.heap f).mCtx = .finished → (s.heap f).mState.Finished
  idle : s.idleFiber < s.next ∧
    (s.heap s.idleFiber = Fiber.new (some .idle) ∨ (s.heap s.idleFiber).mState = .term)

/-- At the head of the loop `cb_fiber` is empty or finished. -/
def CbIdle (s : RunState κ) : Prop :=
  ∀ f, s.cbFiber = some f → f < s.next ∧ f ≠ s.idleFiber ∧
    (s.heap f = Fiber.new none ∨ (s.heap f).mState.Finished)

/-- Two entries do not hold the same fiber. -/
def Apart (a b : FiberAndThread κ) : Prop :=
  ∀ f, a.task = .fiber f → b.task ≠ .fiber f

/-- The entries are for any thread, their fibers are `READY` and each is queued once, and a
suspended fiber is queued. The fiber at hand, if any, is not queued. -/
structure Queues (hand : Option FiberId) (s : RunState κ) : Prop where
  thread : ∀ it ∈ s.mFibers, it.thread = -1
  ready : ∀ it ∈ s.mFibers, ∀ f, it.task = .fiber f →
    (s.heap f).mState = .ready ∧ hand ≠ some f
  apart : s.mFibers.Pairwise Apart
  suspended : ∀ f c, (s.heap f).mCtx = .suspended c →
    hand = some f ∨ ∃ it ∈ s.mFibers, it.task = .fiber f

/-! ### The switch keeps the invariants -/

section Switch

variable {behave : Behaviour κ} {f : FiberId} {s s' : RunState κ}

/-- A fiber that has come back is neither executing nor new. -/
theorem Switched.state_ne {seg : Segment κ} (h : Switched f seg s s') :
  (s'.heap f).mState ≠ .exec ∧ (s'.heap f).mState ≠ .init
  := by
  rw [h.self]
  cases seg.ending with
  | yieldToReady rest => exact ⟨nofun, nofun⟩
  | yeidToHold rest => exact ⟨nofun, nofun⟩
  | ret => exact ⟨nofun, nofun⟩
  | throw => exact ⟨nofun, nofun⟩

/-- A segment of a fiber that has not finished. -/
theorem Sound.switched (h : s.Sound) (hbase : BaseIdle behave)
    (hnot : ¬ (s.heap f).mState.Finished)
    (hs : Switched f ((s.heap f).segment behave f) s s') :
  s'.Sound
  where
  queue := hs.touches.valid h.queue
  finished g hg := by
    by_cases hgf : g = f
    · rw [hgf, hs.self] at hg ⊢
      apply Ending.finished_of_ctx hg
    · obtain heq | ⟨-, cb, heq⟩ := hs.other g hgf
      · rw [heq] at hg ⊢
        apply h.finished g hg
      · rw [heq] at hg
        cases hg
  idle := by
    rw [hs.idleFiber]
    use Nat.lt_of_lt_of_le h.idle.1 hs.touches.next_le
    by_cases hidle : s.idleFiber = f
    · -- the idle fiber executes `idle`, which returns
      obtain hnew | hterm := h.idle.2
      · right
        rw [hidle] at hnew ⊢
        have hseg : (s.heap f).segment behave f = Scheduler.idle := by
          rw [hnew]
          apply hbase
        rw [hs.self, hseg]
        rfl
      · exact absurd (.inl (hidle ▸ hterm)) hnot
    · obtain heq | ⟨hnext, -⟩ := hs.other _ hidle
      · rw [heq]
        apply h.idle.2
      · exact absurd hnext (Nat.not_le_of_lt h.idle.1)

/-- An empty `cb_fiber` throws, if an entry of the queue holds it. -/
theorem CbIdle.switched (h : s.CbIdle) (hnot : ¬ (s.heap f).mState.Finished)
    (hs : Switched f ((s.heap f).segment behave f) s s') :
  s'.CbIdle
  := by
  intro g hg
  rw [hs.cbFiber] at hg
  obtain ⟨hlt, hidle, hstate⟩ := h g hg
  refine ⟨Nat.lt_of_lt_of_le hlt hs.touches.next_le, hs.idleFiber ▸ hidle, ?_⟩
  by_cases hgf : g = f
  · obtain hnew | hfinished := hstate
    · right
      rw [hgf] at hnew ⊢
      rw [hs.self, hnew]
      exact .inr rfl
    · exact absurd (hgf ▸ hfinished) hnot
  · obtain heq | ⟨hnext, -⟩ := hs.other g hgf
    · rw [heq]
      apply hstate
    · exact absurd hnext (Nat.not_le_of_lt hlt)

/-- A plain segment of the fiber at hand adds only callbacks to the queue. -/
theorem Queues.switched (h : s.Queues (some f)) (hvalid : s.Valid) {seg : Segment κ}
    (hplain : seg.Plain) (hs : Switched f seg s s') :
  s'.Queues (some f)
  := by
  obtain ⟨es, hes, hmem⟩ := hs.queue
  have hentry : ∀ it ∈ es, it.thread = -1 ∧ ∀ g, it.task ≠ .fiber g := by
    intro it hit
    obtain ⟨c, hc⟩ := hplain.calls _ (hmem it hit)
    obtain ⟨htask, hthread⟩ := Call.scheduler.inj hc
    simp [Option.some.inj htask, hthread]
  have hsame : ∀ it ∈ s.mFibers, ∀ g, it.task = .fiber g → s'.heap g = s.heap g := by
    intro it hit g hg
    have hgf : g ≠ f := by
      rintro rfl
      apply (h.ready it hit g hg).2 rfl
    have hlt : it.task.NonNull s.next := hvalid it hit
    rw [hg] at hlt
    apply (hs.other g hgf).resolve_right
    rintro ⟨hnext, -⟩
    apply Nat.not_le_of_lt hlt hnext
  constructor
  case thread =>
    intro it hit
    rw [hes] at hit
    obtain hit | hit := List.mem_append.mp hit
    · apply h.thread it hit
    · apply (hentry it hit).1
  case ready =>
    intro it hit g hg
    rw [hes] at hit
    obtain hit | hit := List.mem_append.mp hit
    · rw [hsame it hit g hg]
      apply h.ready it hit g hg
    · apply absurd hg ((hentry it hit).2 g)
  case apart =>
    rw [hes, List.pairwise_append]
    refine ⟨h.apart, ?_, ?_⟩
    · apply List.pairwise_of_forall_mem_list
      exact fun a ha b _ g hg => absurd hg ((hentry a ha).2 g)
    · exact fun a _ b hb g _ => (hentry b hb).2 g
  case suspended =>
    intro g c hg
    by_cases hgf : g = f
    · exact .inl (hgf ▸ rfl)
    · obtain heq | ⟨-, cb, heq⟩ := hs.other g hgf
      · rw [heq] at hg
        obtain hhand | ⟨it, hit, htask⟩ := h.suspended g c hg
        · exact .inl hhand
        · exact .inr ⟨it, hes ▸ List.mem_append_left es hit, htask⟩
      · rw [heq] at hg
        cases hg

/-- What a plain segment leaves its fiber in. -/
theorem Switched.plain {seg : Segment κ} (h : Switched f seg s s') (hplain : seg.Plain) :
  (s'.heap f).mState = .ready ∨
    (s'.heap f).mState.Finished ∧ (s'.heap f).mCtx = .finished
  := by
  rw [h.self]
  cases hending : seg.ending with
  | yieldToReady rest => exact .inl rfl
  | yeidToHold rest => apply absurd hending (hplain.ending rest)
  | ret => exact .inr ⟨.inl rfl, rfl⟩
  | throw => exact .inr ⟨.inr rfl, rfl⟩

end Switch

/-! ### The queue of plain tasks -/

section Queue

variable {f : FiberId} {s : RunState κ}

/-- A fiber that is not `READY` is not queued. -/
theorem Queues.hold (h : s.Queues none) (hf : (s.heap f).mState ≠ .ready) :
  s.Queues (some f)
  where
  thread := h.thread
  apart := h.apart
  ready it hit g hg := by
    have hready := (h.ready it hit g hg).1
    refine ⟨hready, ?_⟩
    rintro ⟨⟩
    apply hf hready
  suspended g c hg := .inr ((h.suspended g c hg).resolve_left nofun)

/-- The fiber at hand is given up, and not suspended. -/
theorem Queues.giveUp (h : s.Queues (some f)) (hf : ∀ c, (s.heap f).mCtx ≠ .suspended c) :
  s.Queues none
  where
  thread := h.thread
  apart := h.apart
  ready it hit g hg := ⟨(h.ready it hit g hg).1, nofun⟩
  suspended g c hg := by
    obtain hhand | hqueued := h.suspended g c hg
    · obtain rfl := Option.some.inj hhand
      apply absurd hg (hf c)
    · exact .inr hqueued

/-- The fiber at hand is queued again. -/
theorem Queues.push (h : s.Queues (some f)) (hlt : f < s.next)
    (hf : (s.heap f).mState = .ready) :
  (s.schedule (some (.fiber f)) (-1)).Queues none
  := by
  have hqueue : (s.schedule (some (.fiber f)) (-1)).mFibers = s.mFibers ++ [⟨.fiber f, -1⟩] := by
    simp [schedule, Scheduler.scheduler, Scheduler.schedulerNolock, Task.NonNull, hlt]
  constructor
  case thread =>
    intro it hit
    rw [hqueue] at hit
    obtain hit | hit := List.mem_append.mp hit
    · apply h.thread it hit
    · rw [List.mem_singleton.mp hit]
  case ready =>
    intro it hit g hg
    rw [hqueue] at hit
    refine ⟨?_, (Option.some_ne_none g).symm⟩
    obtain hit | hit := List.mem_append.mp hit
    · apply (h.ready it hit g hg).1
    · rw [List.mem_singleton.mp hit] at hg
      obtain rfl : f = g := Task.fiber.inj hg
      apply hf
  case apart =>
    rw [hqueue, List.pairwise_append]
    refine ⟨h.apart, List.pairwise_singleton _ _, ?_⟩
    rintro a ha b hb g hg
    rw [List.mem_singleton.mp hb]
    rintro ⟨⟩
    apply (h.ready a ha _ hg).2 rfl
  case suspended =>
    intro g c hg
    right
    rw [hqueue]
    obtain hhand | ⟨it, hit, htask⟩ := h.suspended g c hg
    · obtain rfl := Option.some.inj hhand
      exact ⟨⟨.fiber f, -1⟩, by simp, rfl⟩
    · exact ⟨it, List.mem_append_left _ hit, htask⟩

theorem Queues.set (h : s.Queues (some f)) (fb : Fiber κ) :
  (s.set f fb).Queues (some f)
  where
  thread := h.thread
  apart := h.apart
  ready it hit g hg := by
    obtain ⟨hready, hne⟩ := h.ready it hit g hg
    have hgf : g ≠ f := fun hgf => hne (hgf ▸ rfl)
    refine ⟨?_, hne⟩
    simpa [RunState.set, Function.update_of_ne hgf] using hready
  suspended g c hg := by
    by_cases hgf : g = f
    · exact .inl (hgf ▸ rfl)
    · apply h.suspended g c
      simpa [RunState.set, Function.update_of_ne hgf] using hg

theorem Queues.setCbFiber {hand : Option FiberId} (h : s.Queues hand) (g : Option FiberId) :
  (s.setCbFiber g).Queues hand
  := ⟨h.thread, h.ready, h.apart, h.suspended⟩

/-- The scan takes out a fiber that is queued once. -/
theorem Queues.dequeue_fiber {tid : ℤ} {t : ℤ} {rest : List (FiberAndThread κ)}
    (h : s.Queues none) (hscan : scan s.heap tid s.mFibers = some (⟨.fiber f, t⟩, rest)) :
  { s with mFibers := rest }.Queues (some f)
  := by
  obtain ⟨pre, post, hfs, rfl, -, -⟩ := scan_eq_some hscan
  have hapart := h.apart
  rw [hfs] at hapart
  obtain ⟨hpre, hcons, hbetween⟩ := List.pairwise_append.mp hapart
  obtain ⟨hhead, hpost⟩ := List.pairwise_cons.mp hcons
  have hmem : ∀ it ∈ pre ++ post, it ∈ s.mFibers ∧ it.task ≠ .fiber f := by
    intro it hit
    rw [hfs]
    obtain hit | hit := List.mem_append.mp hit
    · refine ⟨List.mem_append_left _ hit, fun htask => ?_⟩
      apply hbetween it hit _ List.mem_cons_self f htask rfl
    · refine ⟨List.mem_append_right _ (List.mem_cons_of_mem _ hit), ?_⟩
      apply hhead it hit f rfl
  constructor
  case thread => exact fun it hit => h.thread it (hmem it hit).1
  case ready =>
    intro it hit g hg
    refine ⟨(h.ready it (hmem it hit).1 g hg).1, ?_⟩
    rintro ⟨⟩
    apply (hmem it hit).2 hg
  case apart =>
    apply List.pairwise_append.mpr
    exact ⟨hpre, hpost, fun a ha b hb => hbetween a ha b (List.mem_cons_of_mem _ hb)⟩
  case suspended =>
    intro g c hg
    obtain ⟨it, hit, htask⟩ := (h.suspended g c hg).resolve_left nofun
    rw [hfs] at hit
    obtain hit | rfl | hit : it ∈ pre ∨ it = ⟨.fiber f, t⟩ ∨ it ∈ post := by simpa using hit
    · exact .inr ⟨it, List.mem_append_left _ hit, htask⟩
    · exact .inl (congrArg some (Task.fiber.inj htask))
    · exact .inr ⟨it, List.mem_append_right _ hit, htask⟩

/-- A callback is taken from the queue. -/
theorem Queues.dequeue_cb {tid : ℤ} {c : Code κ} {t : ℤ} {rest : List (FiberAndThread κ)}
    (h : s.Queues none) (hscan : scan s.heap tid s.mFibers = some (⟨.cb c, t⟩, rest)) :
  { s with mFibers := rest }.Queues none
  := by
  obtain ⟨pre, post, hfs, rfl, -, -⟩ := scan_eq_some hscan
  have hsub : (pre ++ post).Sublist s.mFibers := by
    rw [hfs]
    apply List.Sublist.append_left
    apply List.sublist_cons_self
  constructor
  case thread => exact fun it hit => h.thread it (hsub.subset hit)
  case ready => exact fun it hit => h.ready it (hsub.subset hit)
  case apart => apply h.apart.sublist hsub
  case suspended =>
    intro g c' hg
    obtain ⟨it, hit, htask⟩ := (h.suspended g c' hg).resolve_left nofun
    rw [hfs] at hit
    obtain hit | rfl | hit : it ∈ pre ∨ it = ⟨.cb c, t⟩ ∨ it ∈ post := by simpa using hit
    · exact .inr ⟨it, List.mem_append_left _ hit, htask⟩
    · cases htask
    · exact .inr ⟨it, List.mem_append_right _ hit, htask⟩

end Queue

/-! ### An iteration -/

/-- What an iteration keeps. -/
structure Steps (behave : Behaviour κ) (s s' : RunState κ) : Prop where
  sound : s'.Sound
  cb : s'.CbIdle
  frame : Frame s s'
  queues : (∀ f c, (behave f c).Plain) → s.Queues none → s'.Queues none

section Steps

variable {behave : Behaviour κ} {f : FiberId} {s s' : RunState κ}

/-- A fiber that has come back is put on `HOLD`. -/
theorem Sound.hold (h : s.Sound) (hf : (s.heap f).mState ≠ .init)
    (hnot : ¬ (s.heap f).mState.Finished) :
  (s.set f (s.heap f).setHold).Sound
  where
  queue := h.queue
  finished g hg := by
    by_cases hgf : g = f
    · simp only [RunState.set, hgf, Function.update_self] at hg
      apply absurd (h.finished f hg) hnot
    · simp only [RunState.set, Function.update_of_ne hgf] at hg ⊢
      apply h.finished g hg
  idle := by
    use h.idle.1
    have hidle : s.idleFiber ≠ f := by
      rintro rfl
      obtain hnew | hterm := h.idle.2
      · exact hf (by rw [hnew]; rfl)
      · exact hnot (.inl hterm)
    simpa only [RunState.set, Function.update_of_ne hidle] using h.idle.2

theorem Sound.setCbFiber (h : s.Sound) (f : Option FiberId) :
  (s.setCbFiber f).Sound
  := ⟨h.queue, h.finished, h.idle⟩

theorem Sound.schedule (h : s.Sound) (fc : Option (Task κ)) (thread : ℤ) :
  (s.schedule fc thread).Sound
  where
  queue := (Touches.schedule 0 fc thread s).valid h.queue
  finished := h.finished
  idle := h.idle

/-- The branch of a fiber stays in the loop. -/
theorem runFiber_steps (h : s.Sound) (hcb : s.CbIdle) (hbase : BaseIdle behave)
    (hlt : f < s.next) (hexec : (s.heap f).mState ≠ .exec)
    (hnot : ¬ (s.heap f).mState.Finished) :
  ∃ s', s.runFiber behave f = some s' ∧ s'.Sound ∧ s'.CbIdle ∧ Frame s s' ∧
    ((∀ f c, (behave f c).Plain) → s.Queues (some f) → s'.Queues none)
  := by
  have hctx : (s.heap f).mCtx ≠ .finished := fun hctx => hnot (h.finished f hctx)
  obtain ⟨t, ht, hs⟩ := swapInActive_switched behave hlt hexec hctx
  have hsound := h.switched hbase hnot hs
  have hidle := hcb.switched hnot hs
  have hlt' : f < t.next := Nat.lt_of_lt_of_le hlt hs.touches.next_le
  refine ⟨t.settleFiber f, by rw [runFiber, ht]; rfl, ?_⟩
  unfold settleFiber holdUnlessFinished
  split
  case isTrue hready =>
    refine ⟨hsound.schedule _ _, hidle, hs.frame.schedule _ _, ?_⟩
    intro hplain hqueues
    apply (hqueues.switched h.queue (Fiber.segment_plain hplain f _) hs).push hlt' hready
  case isFalse hready =>
    split
    case isTrue hfinished =>
      refine ⟨hsound, hidle, hs.frame, ?_⟩
      intro hplain hqueues
      have hsegment := Fiber.segment_plain hplain f (s.heap f)
      apply (hqueues.switched h.queue hsegment hs).giveUp
      obtain hready' | ⟨-, hctx'⟩ := hs.plain hsegment
      · apply absurd hready' hready
      · simp [hctx']
    case isFalse hfinished =>
      refine ⟨hsound.hold hs.state_ne.2 hfinished, ?_, hs.frame.set f _, ?_⟩
      · intro g hg
        obtain ⟨hglt, hgidle, hstate⟩ := hidle g hg
        refine ⟨hglt, hgidle, ?_⟩
        have hgf : g ≠ f := by
          rintro rfl
          obtain hnew | hfinished' := hstate
          · exact hs.state_ne.2 (by rw [hnew]; rfl)
          · apply hfinished hfinished'
        simpa only [RunState.set, Function.update_of_ne hgf] using hstate
      · intro hplain _
        obtain hready' | ⟨hfinished', -⟩ := hs.plain (Fiber.segment_plain hplain f _)
        · apply absurd hready' hready
        · apply absurd hfinished' hfinished

/-- The fiber `f` has been constructed or reset with the callback `c`. -/
structure Bound (f : FiberId) (c : Code κ) (s t : RunState κ) : Prop where
  sound : t.Sound
  lt : f < t.next
  ne_idle : f ≠ t.idleFiber
  heap : t.heap f = Fiber.new (some c)
  cbFiber : t.cbFiber = some f
  frame : Frame s t
  queues : s.Queues none → t.Queues (some f)

theorem Sound.setNew (h : s.Sound) (hf : f ≠ s.idleFiber) (cb : Option (Code κ)) :
  (s.set f (Fiber.new cb)).Sound
  where
  queue := h.queue
  finished g hg := by
    by_cases hgf : g = f
    · simp [RunState.set, hgf, Fiber.new] at hg
    · simp only [RunState.set, Function.update_of_ne hgf] at hg ⊢
      apply h.finished g hg
  idle := by
    use h.idle.1
    simpa only [RunState.set, Function.update_of_ne hf.symm] using h.idle.2

/-- A new fiber is constructed. -/
theorem Sound.newFiber (h : s.Sound) (cb : Option (Code κ)) :
  (s.newFiber cb).Sound
  where
  queue := (Touches.newFiber 0 cb s).valid h.queue
  finished g hg := by
    by_cases hgf : g = s.next
    · simp [RunState.newFiber, hgf, Fiber.new] at hg
    · simp only [RunState.newFiber, Function.update_of_ne hgf] at hg ⊢
      apply h.finished g hg
  idle := by
    use Nat.lt_succ_of_lt h.idle.1
    simpa only [RunState.newFiber, Function.update_of_ne (Nat.ne_of_lt h.idle.1)] using h.idle.2

theorem Queues.newFiber (h : s.Queues none) (hvalid : s.Valid) (cb : Option (Code κ)) :
  (s.newFiber cb).Queues (some s.next)
  where
  thread := h.thread
  apart := h.apart
  ready it hit g hg := by
    have hlt : it.task.NonNull s.next := hvalid it hit
    rw [hg] at hlt
    have hne : g ≠ s.next := Nat.ne_of_lt hlt
    constructor
    · simpa only [RunState.newFiber, Function.update_of_ne hne] using (h.ready it hit g hg).1
    · exact fun heq => hne (Option.some.inj heq).symm
  suspended g c hg := by
    by_cases hgf : g = s.next
    · exact .inl (hgf ▸ rfl)
    · simp only [RunState.newFiber, Function.update_of_ne hgf] at hg
      exact .inr ((h.suspended g c hg).resolve_left nofun)

/-- A callback can always be bound. -/
theorem bindCb_bound (h : s.Sound) (hcb : s.CbIdle) (c : Code κ) :
  ∃ f t, s.bindCb c = some (f, t) ∧ Bound f c s t
  := by
  unfold bindCb
  split
  case h_1 f hf =>
    obtain ⟨hlt, hidle, hstate⟩ := hcb f hf
    have hreset : (s.heap f).mState.Resettable := by
      obtain hnew | hfinished := hstate
      · rw [hnew]
        exact .inr (.inr rfl)
      · apply hfinished.resettable
    rw [Fiber.reset_eq_some.mpr ⟨hreset, rfl⟩]
    refine ⟨f, _, rfl, ?_⟩
    constructor
    case sound => apply h.setNew hidle
    case lt => apply hlt
    case ne_idle => apply hidle
    case heap => apply Function.update_self
    case cbFiber => apply hf
    case frame => exact ⟨rfl, rfl, rfl⟩
    case queues =>
      intro hqueues
      apply Queues.set
      apply hqueues.hold
      intro hready
      rw [hready] at hreset
      exact absurd hreset (by decide)
  case h_2 =>
    refine ⟨s.next, _, rfl, ?_⟩
    constructor
    case sound => apply (h.newFiber (some c)).setCbFiber
    case lt => apply Nat.lt_succ_self
    case ne_idle => apply Nat.ne_of_gt h.idle.1
    case heap => apply Function.update_self
    case cbFiber => rfl
    case frame => exact ⟨rfl, rfl, rfl⟩
    case queues =>
      intro hqueues
      apply (hqueues.newFiber h.queue (some c)).setCbFiber

/-- What is done with the fiber of a callback leaves `cb_fiber` empty or gives it up. -/
theorem settleCb_steps (h : s.Sound) (hlt : f < s.next) (hidle : f ≠ s.idleFiber)
    (hcb : s.cbFiber = some f) (hinit : (s.heap f).mState ≠ .init) :
  ∃ s', s.settleCb f = some s' ∧ s'.Sound ∧ s'.CbIdle ∧ Frame s s' ∧
    ((s.heap f).mState = .ready ∨ (s.heap f).mState.Finished → s.Queues (some f) →
      s'.Queues none)
  := by
  unfold settleCb
  split
  case isTrue hready =>
    refine ⟨_, rfl, (h.schedule _ _).setCbFiber none, nofun,
      ((Frame.refl s).schedule _ _).setCbFiber none, ?_⟩
    intro _ hqueues
    apply (hqueues.push hlt hready).setCbFiber
  case isFalse hready =>
    split
    case isTrue hfinished =>
      rw [Fiber.reset_eq_some.mpr ⟨hfinished.resettable, rfl⟩]
      refine ⟨_, rfl, h.setNew hidle none, ?_, (Frame.refl s).set f _, ?_⟩
      · intro g hg
        obtain rfl : f = g := Option.some.inj (hcb.symm.trans hg)
        exact ⟨hlt, hidle, .inl (Function.update_self _ _ _)⟩
      · intro _ hqueues
        apply (hqueues.set (Fiber.new none)).giveUp
        simp [RunState.set, Fiber.new]
    case isFalse hfinished =>
      refine ⟨_, rfl, (h.hold hinit hfinished).setCbFiber none, nofun,
        ((Frame.refl s).set f _).setCbFiber none, ?_⟩
      intro hplain
      apply absurd hplain (not_or.mpr ⟨hready, hfinished⟩)

/-- The branch of a callback stays in the loop. -/
theorem runCb_steps (h : s.Sound) (hcb : s.CbIdle) (hbase : BaseIdle behave) (c : Code κ) :
  ∃ s', s.runCb behave c = some s' ∧ Steps behave s s'
  := by
  obtain ⟨f, t, ht, hbound⟩ := bindCb_bound (s := s.log (.start c))
    ⟨h.queue, h.finished, h.idle⟩ hcb c
  have hexec : (t.heap f).mState ≠ .exec := by
    rw [hbound.heap]
    exact nofun
  have hnot : ¬ (t.heap f).mState.Finished := by
    rw [hbound.heap]
    simp [Fiber.new]
  have hctx : (t.heap f).mCtx ≠ .finished := fun hctx => hnot (hbound.sound.finished f hctx)
  obtain ⟨u, hu, hs⟩ := swapInActive_switched behave hbound.lt hexec hctx
  have hsound := hbound.sound.switched hbase hnot hs
  obtain ⟨s', hs', hsound', hidle, hframe, hqueues⟩ := settleCb_steps hsound
    (Nat.lt_of_lt_of_le hbound.lt hs.touches.next_le) (hs.idleFiber ▸ hbound.ne_idle)
    (hs.cbFiber.trans hbound.cbFiber) hs.state_ne.2
  refine ⟨s', ?_, hsound', hidle, ?_, ?_⟩
  · rw [runCb, ht, Option.bind_some, hu, Option.bind_some, hs']
  · have hlog : Frame s (s.log (.start c)) := ⟨rfl, rfl, rfl⟩
    apply ((hlog.trans hbound.frame).trans hs.frame).trans hframe
  · intro hplain hq
    have hsegment := Fiber.segment_plain hplain f (t.heap f)
    have hlog : (s.log (.start c)).Queues none := ⟨hq.thread, hq.ready, hq.apart, hq.suspended⟩
    apply hqueues
    · apply (hs.plain hsegment).imp_right And.left
    · apply (hbound.queues hlog).switched hbound.sound.queue hsegment hs

/-- The idle fiber returns. -/
theorem runIdle_steps (h : s.Sound) (hcb : s.CbIdle) (hbase : BaseIdle behave)
    (hterm : (s.heap s.idleFiber).mState ≠ .term) :
  ∃ s', s.runIdle behave = some s' ∧ Steps behave s s'
  := by
  have hnew := h.idle.2.resolve_right hterm
  have hnot : ¬ (s.heap s.idleFiber).mState.Finished := by
    rw [hnew]
    simp [Fiber.new]
  have hexec : (s.heap s.idleFiber).mState ≠ .exec := by
    rw [hnew]
    exact nofun
  have hctx : (s.heap s.idleFiber).mCtx ≠ .finished := fun hctx => hnot (h.finished _ hctx)
  obtain ⟨t, ht, hs⟩ := swapInIdle_switched behave h.idle.1 hexec hctx
  have hseg : (s.heap s.idleFiber).segment behave s.idleFiber = Scheduler.idle := by
    rw [hnew]
    apply hbase
  have hself : (t.heap s.idleFiber).mState.Finished ∧
      (t.heap s.idleFiber).mCtx = .finished := by
    rw [hs.self, hseg]
    exact ⟨.inl rfl, rfl⟩
  refine ⟨t, ?_, h.switched hbase hnot hs, hcb.switched hnot hs, hs.frame, ?_⟩
  · rw [runIdle, ht, Option.map_some, holdUnlessFinished, if_pos hself.1]
  · intro hplain hqueues
    have hhand : s.Queues (some s.idleFiber) := by
      apply hqueues.hold
      rw [hnew]
      exact nofun
    apply (hhand.switched h.queue (Fiber.segment_plain hplain _ _) hs).giveUp
    simp [hself.2]

end Steps

/-! ### The loop -/

section Loop

variable {tid : ℤ} {behave : Behaviour κ} {s s' : RunState κ}

/-- The last branch of the loop stays in it, or leaves it with the state unchanged. -/
theorem Sound.idleOrBreak (h : s.Sound) (hcb : s.CbIdle) (hbase : BaseIdle behave) :
  (∃ s', s.idleOrBreak behave = .running s' ∧ Steps behave s s') ∨
    s.idleOrBreak behave = .returned s
  := by
  unfold RunState.idleOrBreak
  split
  case isTrue => exact .inr rfl
  case isFalse hterm =>
    obtain ⟨s', hs', hsteps⟩ := runIdle_steps h hcb hbase hterm
    exact .inl ⟨s', by rw [hs']; rfl, hsteps⟩

/-- With plain tasks nothing is queued when the scan takes nothing. -/
theorem Queues.of_scan_none (h : s.Queues none) (hscan : scan s.heap tid s.mFibers = none) :
  s.mFibers = []
  := by
  rw [List.eq_nil_iff_forall_not_mem]
  intro it hit
  obtain ⟨hthread, -⟩ | hexec := scan_eq_none.mp hscan it hit
  · apply hthread (h.thread it hit)
  · obtain ⟨f | c, t⟩ := it
    case fiber =>
      have hready := (h.ready _ hit f rfl).1
      rw [show (s.heap f).mState = .exec from hexec] at hready
      cases hready
    case cb => apply hexec

/-- What is left when the loop returns. -/
structure Leaves (s s' : RunState κ) : Prop where
  sound : s'.Sound
  frame : Frame s s'
  queues : s.Queues none → s'.mFibers = [] ∧ s'.Queues none

/-- An iteration stays in the loop or leaves it; it does not abort. -/
theorem Sound.iteration (h : s.Sound) (tid : ℤ) (hcb : s.CbIdle) (hbase : BaseIdle behave) :
  (∃ s', s.iteration tid behave = .running s' ∧ Steps behave s s') ∨
    ∃ s', s.iteration tid behave = .returned s' ∧ Leaves s s'
  := by
  unfold RunState.iteration
  split
  case h_1 hscan =>
    apply (h.idleOrBreak hcb hbase).imp_right
    intro hs'
    exact ⟨s, hs', h, .refl s, fun hqueues => ⟨hqueues.of_scan_none hscan, hqueues⟩⟩
  case h_2 f t rest hscan =>
    have hrest : { s with mFibers := rest }.Sound := ⟨h.queue.dequeue hscan, h.finished, h.idle⟩
    simp only
    split
    case isTrue hfinished =>
      -- a plain task is `READY` while it is queued
      have hqueued : ¬ s.Queues none := by
        intro hqueues
        obtain ⟨pre, post, hfs, -⟩ := scan_eq_some hscan
        have hready := (hqueues.ready ⟨.fiber f, t⟩ (by simp [hfs]) f rfl).1
        rw [hready] at hfinished
        exact absurd hfinished (by decide)
      obtain ⟨s', hs', hsteps⟩ | hs' := hrest.idleOrBreak hcb hbase
      · exact .inl ⟨s', hs', hsteps.sound, hsteps.cb, hsteps.frame.dequeued,
          fun _ hqueues => absurd hqueues hqueued⟩
      · exact .inr ⟨_, hs', hrest, ⟨rfl, rfl, rfl⟩, fun hqueues => absurd hqueues hqueued⟩
    case isFalse hfinished =>
      obtain ⟨pre, post, hfs, -, -, hpass⟩ := scan_eq_some hscan
      have hlt : f < s.next := h.queue ⟨.fiber f, t⟩ (by simp [hfs])
      have hexec : (s.heap f).mState ≠ .exec := fun hexec => hpass (.inr hexec)
      obtain ⟨s', hs', hsound, hidle, hframe, hqueues⟩ :=
        runFiber_steps hrest hcb hbase hlt hexec hfinished
      refine .inl ⟨s', by rw [hs']; rfl, hsound, hidle, hframe.dequeued, ?_⟩
      exact fun hplain hq => hqueues hplain (hq.dequeue_fiber hscan)
  case h_3 c t rest hscan =>
    have hrest : { s with mFibers := rest }.Sound := ⟨h.queue.dequeue hscan, h.finished, h.idle⟩
    obtain ⟨s', hs', hsteps⟩ := runCb_steps hrest hcb hbase c
    refine .inl ⟨s', by rw [hs']; rfl, hsteps.sound, hsteps.cb, hsteps.frame.dequeued, ?_⟩
    exact fun hplain hq => hsteps.queues hplain (hq.dequeue_cb hscan)

/-- No assertion fails in the loop. -/
theorem Sound.loop_ne_aborted {bs : List (Behaviour κ)} (h : s.Sound) (hcb : s.CbIdle)
    (hbase : ∀ behave ∈ bs, BaseIdle behave) :
  s.loop tid bs ≠ .aborted
  := by
  induction bs generalizing s with
  | nil => simp [RunState.loop]
  | cons behave bs ih =>
      obtain ⟨hbehave, hbs⟩ := List.forall_mem_cons.mp hbase
      rw [RunState.loop]
      obtain ⟨t, ht, hsteps⟩ | ⟨t, ht, -⟩ := h.iteration tid hcb hbehave
      · rw [ht]
        apply ih hsteps.sound hsteps.cb hbs
      · simp [ht]

/-- When the loop returns, plain tasks have all been executed to their end. -/
theorem Sound.loop_returned {bs : List (Behaviour κ)} (h : s.Sound) (hcb : s.CbIdle)
    (hbase : ∀ behave ∈ bs, BaseIdle behave) (hs' : s.loop tid bs = .returned s') :
  s'.Sound ∧ Frame s s' ∧
    ((∀ behave ∈ bs, ∀ f c, (behave f c).Plain) → s.Queues none →
      s'.mFibers = [] ∧ s'.Queues none)
  := by
  induction bs generalizing s with
  | nil => cases hs'
  | cons behave bs ih =>
      obtain ⟨hbehave, hbs⟩ := List.forall_mem_cons.mp hbase
      rw [RunState.loop] at hs'
      obtain ⟨t, ht, hsteps⟩ | ⟨t, ht, hleaves⟩ := h.iteration tid hcb hbehave
      · rw [ht] at hs'
        obtain ⟨hsound, hframe, hqueues⟩ := ih hsteps.sound hsteps.cb hbs hs'
        refine ⟨hsound, hsteps.frame.trans hframe, fun hplain hq => ?_⟩
        obtain ⟨hplain₁, hplain₂⟩ := List.forall_mem_cons.mp hplain
        apply hqueues hplain₂ (hsteps.queues hplain₁ hq)
      · rw [ht] at hs'
        obtain rfl : t = s' := Outcome.returned.inj hs'
        exact ⟨hleaves.sound, hleaves.frame, fun _ => hleaves.queues⟩

end Loop

end RunState

/-- `run()` begins in a sound state. -/
theorem Scheduler.enter_sound {s : Scheduler κ} (hs : s.Valid)
    (hfinished : ∀ f, (s.heap f).mCtx = .finished → (s.heap f).mState.Finished) (main : FiberId) :
  (s.enter main).Sound
  where
  queue := enter_valid hs main
  finished f hf := by
    by_cases hnext : f = s.next
    · simp [enter, hnext, Fiber.new] at hf
    · simp only [enter, Function.update_of_ne hnext] at hf ⊢
      apply hfinished f hf
  idle := ⟨Nat.lt_succ_self _, .inl (Function.update_self _ _ _)⟩

/-- A queue of callbacks, while no fiber is suspended. -/
theorem Scheduler.enter_queues {s : Scheduler κ}
    (hqueue : ∀ it ∈ s.mFibers, ∃ c, it = ⟨.cb c, -1⟩)
    (hsuspended : ∀ f c, (s.heap f).mCtx ≠ .suspended c) (main : FiberId) :
  (s.enter main).Queues none
  where
  thread it hit := by
    obtain ⟨c, rfl⟩ := hqueue it hit
    rfl
  ready it hit f hf := by
    obtain ⟨c, rfl⟩ := hqueue it hit
    cases hf
  apart := by
    apply List.pairwise_of_forall_mem_list
    intro a ha b _ f hf
    obtain ⟨c, rfl⟩ := hqueue a ha
    cases hf
  suspended f c hf := by
    by_cases hnext : f = s.next
    · simp [enter, hnext, Fiber.new] at hf
    · simp only [enter, Function.update_of_ne hnext] at hf
      apply absurd hf (hsuspended f c)

end WbServer
