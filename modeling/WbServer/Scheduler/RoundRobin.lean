import WbServer.Scheduler.Run
import WbServer.Base.RoundRobin

/-!
# The run loop is a round-robin machine

A workload is a list of callbacks, each a finite sequence of segments that schedules
further callbacks. The abstract machine keeps the callbacks in progress in a queue and
serves them round robin (`Progress.turn`); the loop of `Scheduler::run` keeps them in
entries of callbacks, in suspended fibers and in `cb_fiber`, which it resets and reuses.
`RunState.Simulates` relates the two, every iteration of the loop is one turn of the machine
(`RunState.Simulates.iteration`), and `Scheduler.run_serves` follows for whole runs.
-/

namespace WbServer

variable {α : Type}

/-! ### Workloads -/

/-- A callback: segments separated by `YieldToReady`, of which the last one returns or
throws. A segment has a label and the callbacks it schedules, unpinned. -/
inductive Callback (α : Type) where
  | ret (label : α) (calls : List (Callback α))
  | throw (label : α) (calls : List (Callback α))
  | yield (label : α) (calls : List (Callback α)) (rest : Callback α)

namespace Callback

/-- The callbacks that the first segment schedules. -/
def calls : Callback α → List (Callback α)
  | .ret _ calls => calls
  | .throw _ calls => calls
  | .yield _ calls _ => calls

/-- The segments behind the first one. -/
def rest? : Callback α → Option (Callback α)
  | .ret _ _ => none
  | .throw _ _ => none
  | .yield _ _ rest => some rest

/-- How the first segment ends. -/
def ending : Callback α → Ending (Callback α)
  | .ret _ _ => .ret
  | .throw _ _ => .throw
  | .yield _ _ rest => .yieldToReady (.task rest)

/-- An unpinned call of `scheduler` with a callback. -/
def schedule (c : Callback α) : Call (Callback α) :=
  .scheduler (some (.cb (.task c))) (-1)

/-- What the callbacks do under the `idle` of the base class. -/
def behave : Behaviour (Callback α)
  | _, .idle => Scheduler.idle
  | _, .task c => { calls := c.calls.map schedule, ending := c.ending }

end Callback

/-- A callback in progress: `todo` is what is left of the callback `cb`. -/
structure Progress (α : Type) where
  cb : Callback α
  todo : Callback α

namespace Progress

/-- A callback that has not been started. -/
def start (c : Callback α) : Progress α := ⟨c, c⟩

/-- A turn of the abstract machine: the next segment of a callback. -/
def turn (p : Progress α) : RoundRobin.Turn (Progress α) where
  spawned := p.todo.calls.map start
  rest := p.todo.rest?.map fun c => ⟨p.cb, c⟩

end Progress

mutual

/-- The number of segments of a callback and of all callbacks it leads to. -/
def Callback.work : Callback α → ℕ
  | .ret _ calls => Callback.works calls + 1
  | .throw _ calls => Callback.works calls + 1
  | .yield _ calls rest => Callback.works calls + rest.work + 1

/-- The number of segments of a list of callbacks. -/
def Callback.works : List (Callback α) → ℕ
  | [] => 0
  | c :: cs => c.work + Callback.works cs

end

mutual

/-- The segments of a callback `cb` from `todo` on and of all callbacks they lead to. -/
def Callback.unfold (cb : Callback α) : (todo : Callback α) → List (Progress α)
  | .ret l calls => ⟨cb, .ret l calls⟩ :: Callback.unfolds calls
  | .throw l calls => ⟨cb, .throw l calls⟩ :: Callback.unfolds calls
  | .yield l calls rest =>
      ⟨cb, .yield l calls rest⟩ :: (Callback.unfolds calls ++ Callback.unfold cb rest)

/-- The segments of a list of callbacks and of all callbacks they lead to. -/
def Callback.unfolds : List (Callback α) → List (Progress α)
  | [] => []
  | c :: cs => Callback.unfold c c ++ Callback.unfolds cs

end

/-- The segments of the callback `cb` from `todo` on. -/
def Callback.turns (cb : Callback α) : (todo : Callback α) → List (Progress α)
  | .ret l calls => [⟨cb, .ret l calls⟩]
  | .throw l calls => [⟨cb, .throw l calls⟩]
  | .yield l calls rest => ⟨cb, .yield l calls rest⟩ :: Callback.turns cb rest

theorem Callback.works_eq (cs : List (Callback α)) :
  Callback.works cs = (cs.map Callback.work).sum
  := by
  induction cs with
  | nil => rfl
  | cons c cs ih => rw [Callback.works, List.map_cons, List.sum_cons, ih]

theorem Callback.unfolds_eq (cs : List (Callback α)) :
  Callback.unfolds cs = cs.flatMap fun c => Callback.unfold c c
  := by
  induction cs with
  | nil => rfl
  | cons c cs ih => rw [Callback.unfolds, List.flatMap_cons, ih]

namespace Progress

/-- A workload is finite. -/
def finiteWork : RoundRobin.Work (turn (α := α)) where
  work p := p.todo.work
  work_eq := by
    intro ⟨cb, todo⟩
    cases todo with
    | ret l calls =>
        simp [turn, Callback.work, Callback.works_eq, Callback.calls, Callback.rest?,
          Function.comp_def, start]
    | throw l calls =>
        simp [turn, Callback.work, Callback.works_eq, Callback.calls, Callback.rest?,
          Function.comp_def, start]
    | yield l calls rest =>
        simp [turn, Callback.work, Callback.works_eq, Callback.calls, Callback.rest?,
          Function.comp_def, start]

/-- The segments of a callback in progress are its present one, those of the callbacks it
schedules, and those behind it. -/
theorem unfolds_turn :
  RoundRobin.Unfolds (turn (α := α)) id fun p => Callback.unfold p.cb p.todo
  := by
  constructor
  intro ⟨cb, todo⟩
  cases todo with
  | ret l calls =>
      simp [turn, Callback.unfold, Callback.unfolds_eq, Callback.calls, Callback.rest?,
        List.flatMap_map, start]
  | throw l calls =>
      simp [turn, Callback.unfold, Callback.unfolds_eq, Callback.calls, Callback.rest?,
        List.flatMap_map, start]
  | yield l calls rest =>
      simp [turn, Callback.unfold, Callback.unfolds_eq, Callback.calls, Callback.rest?,
        List.flatMap_map, start]

/-- A turn, and those of the rest of the callback. -/
theorem turns_turn (p : Progress α) :
  Callback.turns p.cb p.todo
    = p :: (turn p).rest.toList.flatMap fun r => Callback.turns r.cb r.todo
  := by
  obtain ⟨cb, todo⟩ := p
  cases todo <;> simp [turn, Callback.turns, Callback.rest?]

end Progress

/-! ### The simulation -/

/-- The entry of a callback that has been scheduled unpinned. -/
def Callback.entry (c : Callback α) : FiberAndThread (Callback α) :=
  ⟨.cb (.task c), -1⟩

/-- The fiber of a callback that is suspended. -/
def Progress.suspended (p : Progress α) : Fiber (Callback α) where
  mState := .ready
  mCb := some (.task p.cb)
  mCtx := .suspended (.task p.todo)

/-- The entry `ft` holds the callback in progress `p`: as a callback that has not been
started, or as a fiber suspended in it. -/
inductive Holds (heap : FiberId → Fiber (Callback α)) :
    FiberAndThread (Callback α) → Progress α → Prop where
  | cb (c : Callback α) : Holds heap c.entry (.start c)
  | fiber {f : FiberId} {p : Progress α} (h : heap f = p.suspended) :
      Holds heap ⟨.fiber f, -1⟩ p

/-- The fibers in a queue. -/
def fibersOf {κ : Type} (fibers : List (FiberAndThread κ)) : List FiberId :=
  fibers.filterMap fun ft =>
    match ft.task with
    | .fiber f => some f
    | .cb _ => none

/-- The variables of the loop hold the queue `q` of the abstract machine: the entries hold
its callbacks, in fibers of their own, `cb_fiber` is empty and the idle fiber has not been
woken. -/
structure HoldsQueue (heap : FiberId → Fiber (Callback α)) (next : FiberId)
    (fibers : List (FiberAndThread (Callback α))) (cb : Option FiberId) (idle : FiberId)
    (q : List (Progress α)) : Prop where
  queue : List.Forall₂ (Holds heap) fibers q
  nodup : (fibersOf fibers ++ cb.toList ++ [idle]).Nodup
  lt : ∀ g ∈ fibersOf fibers ++ cb.toList ++ [idle], g < next
  cb_eq : ∀ f ∈ cb, heap f = Fiber.new none
  idle_eq : heap idle = Fiber.new (some .idle)

namespace HoldsQueue

variable {heap : FiberId → Fiber (Callback α)} {next f idle : FiberId}
  {fibers : List (FiberAndThread (Callback α))} {cb : Option FiberId}
  {q : List (Progress α)}

/-- A fiber is owned by the loop if it is in the queue, `cb_fiber` or the idle fiber. -/
def Owned (fibers : List (FiberAndThread (Callback α))) (cb : Option FiberId)
    (idle f : FiberId) : Prop :=
  f ∈ fibersOf fibers ++ cb.toList ++ [idle]

/-- What an entry holds does not depend on other fibers. -/
theorem holds_update {ft : FiberAndThread (Callback α)} {p : Progress α}
    (h : Holds heap ft p) (hf : f ∉ fibersOf [ft]) (fb : Fiber (Callback α)) :
  Holds (Function.update heap f fb) ft p
  := by
  cases h with
  | cb c => apply Holds.cb
  | @fiber g p h =>
      apply Holds.fiber
      rw [Function.update_of_ne, h]
      rintro rfl
      simp [fibersOf] at hf

theorem forall₂_update {fibers : List (FiberAndThread (Callback α))} {q : List (Progress α)}
    (h : List.Forall₂ (Holds heap) fibers q) (hf : f ∉ fibersOf fibers)
    (fb : Fiber (Callback α)) :
  List.Forall₂ (Holds (Function.update heap f fb)) fibers q
  := by
  induction h with
  | nil => apply List.Forall₂.nil
  | @cons ft p fibers q hft _ ih =>
      rw [fibersOf, show ft :: fibers = [ft] ++ fibers from rfl, List.filterMap_append,
        List.mem_append, not_or] at hf
      apply List.Forall₂.cons (holds_update hft hf.1 fb)
      apply ih hf.2

/-- A fiber that the loop does not own may change. -/
theorem update (h : HoldsQueue heap next fibers cb idle q) (hf : ¬ Owned fibers cb idle f)
    (fb : Fiber (Callback α)) :
  HoldsQueue (Function.update heap f fb) next fibers cb idle q
  where
  queue := by
    apply forall₂_update h.queue
    intro hmem
    apply hf
    simp [Owned, hmem]
  nodup := h.nodup
  lt := h.lt
  cb_eq g hg := by
    rw [Function.update_of_ne, h.cb_eq g hg]
    rintro rfl
    apply hf
    simp [Owned, Option.mem_toList.mpr hg]
  idle_eq := by
    rw [Function.update_of_ne, h.idle_eq]
    rintro rfl
    apply hf
    simp [Owned]

/-- A new fiber is not owned. -/
theorem alloc (h : HoldsQueue heap next fibers cb idle q) (fb : Fiber (Callback α)) :
  HoldsQueue (Function.update heap next fb) (next + 1) fibers cb idle q
  := by
  have hnext : ¬ Owned fibers cb idle next := fun hmem => Nat.lt_irrefl _ (h.lt next hmem)
  exact { h.update hnext fb with lt := fun g hg => Nat.lt_succ_of_lt (h.lt g hg) }

@[simp]
theorem fibersOf_entries (calls : List (Callback α)) :
  fibersOf (calls.map Callback.entry) = []
  := by
  simp [fibersOf, Callback.entry]

theorem fibersOf_append {κ : Type} (fs gs : List (FiberAndThread κ)) :
  fibersOf (fs ++ gs) = fibersOf fs ++ fibersOf gs
  := List.filterMap_append

/-- Scheduling callbacks appends them to the queue. -/
theorem spawn (h : HoldsQueue heap next fibers cb idle q) (calls : List (Callback α)) :
  HoldsQueue heap next (fibers ++ calls.map Callback.entry) cb idle
    (q ++ calls.map Progress.start)
  where
  queue := by
    apply List.rel_append h.queue
    rw [List.forall₂_map_left_iff, List.forall₂_map_right_iff, List.forall₂_same]
    intro c _
    apply Holds.cb
  nodup := by simpa [fibersOf_append] using h.nodup
  lt := by simpa [fibersOf_append] using h.lt
  cb_eq := h.cb_eq
  idle_eq := h.idle_eq

/-- Queueing a suspended fiber appends its callback to the queue. -/
theorem push (h : HoldsQueue heap next fibers cb idle q) (hf : ¬ Owned fibers cb idle f)
    (hlt : f < next) {p : Progress α} (hp : heap f = p.suspended) :
  HoldsQueue heap next (fibers ++ [⟨.fiber f, -1⟩]) cb idle (q ++ [p])
  where
  queue := by
    apply List.rel_append h.queue
    apply List.Forall₂.cons (.fiber hp) .nil
  nodup := by
    have hperm : (fibersOf (fibers ++ [⟨.fiber f, -1⟩]) ++ cb.toList ++ [idle]).Perm
        (f :: (fibersOf fibers ++ cb.toList ++ [idle])) := by
      simp only [fibersOf_append, List.append_assoc]
      apply List.perm_middle
    rw [hperm.nodup_iff, List.nodup_cons]
    exact ⟨hf, h.nodup⟩
  lt := by
    intro g hg
    by_cases hgf : g = f
    · rw [hgf]
      apply hlt
    · apply h.lt g
      simp only [fibersOf_append, List.mem_append] at hg ⊢
      simp only [fibersOf, List.filterMap_cons, List.filterMap_nil, List.mem_singleton] at hg ⊢
      tauto
  cb_eq := h.cb_eq
  idle_eq := h.idle_eq

/-- A fiber that has been reset is kept as `cb_fiber`. -/
theorem keep (h : HoldsQueue heap next fibers none idle q) (hf : ¬ Owned fibers none idle f)
    (hlt : f < next) (hfb : heap f = Fiber.new none) :
  HoldsQueue heap next fibers (some f) idle q
  where
  queue := h.queue
  nodup := by
    have hperm : (fibersOf fibers ++ (some f).toList ++ [idle]).Perm
        (f :: (fibersOf fibers ++ (none : Option FiberId).toList ++ [idle])) := by
      simp only [Option.toList_some, Option.toList_none, List.append_nil, List.append_assoc]
      apply List.perm_middle
    rw [hperm.nodup_iff, List.nodup_cons]
    exact ⟨hf, h.nodup⟩
  lt := by
    intro g hg
    by_cases hgf : g = f
    · rw [hgf]
      apply hlt
    · apply h.lt g
      simp only [List.mem_append, Option.toList_some, List.mem_singleton] at hg ⊢
      tauto
  cb_eq := by
    rintro g hg
    obtain rfl : f = g := by simpa using hg
    apply hfb
  idle_eq := h.idle_eq

/-- The entry of a callback is taken from the queue. -/
theorem tail {ft : FiberAndThread (Callback α)} {p : Progress α}
    (h : HoldsQueue heap next (ft :: fibers) cb idle (p :: q)) :
  HoldsQueue heap next fibers cb idle q
  := by
  have hsub : (fibersOf fibers ++ cb.toList ++ [idle]).Sublist
      (fibersOf (ft :: fibers) ++ cb.toList ++ [idle]) := by
    rw [show ft :: fibers = [ft] ++ fibers from rfl, fibersOf_append]
    simp only [List.append_assoc]
    apply List.sublist_append_right
  obtain _ | ⟨-, hqueue⟩ := h.queue
  exact ⟨hqueue, h.nodup.sublist hsub, fun g hg => h.lt g (hsub.subset hg), h.cb_eq, h.idle_eq⟩

/-- The fiber of an entry taken from the queue is not owned any more. -/
theorem not_owned_of_cons {t : ℤ} (h : HoldsQueue heap next (⟨.fiber f, t⟩ :: fibers) cb idle q) :
  ¬ Owned fibers cb idle f ∧ f < next
  := by
  have hnodup := h.nodup
  rw [show fibersOf (⟨.fiber f, t⟩ :: fibers) = f :: fibersOf fibers from rfl] at hnodup
  constructor
  · apply (List.nodup_cons.mp hnodup).1
  · apply h.lt
    simp [fibersOf]

/-- `cb_fiber` is given away. -/
theorem take_cb (h : HoldsQueue heap next fibers (some f) idle q) :
  HoldsQueue heap next fibers none idle q ∧ ¬ Owned fibers none idle f ∧ f < next
  := by
  have hperm : (fibersOf fibers ++ (some f).toList ++ [idle]).Perm
      (f :: (fibersOf fibers ++ (none : Option FiberId).toList ++ [idle])) := by
    simp only [Option.toList_some, Option.toList_none, List.append_nil, List.append_assoc]
    apply List.perm_middle
  have hnodup := hperm.nodup_iff.mp h.nodup
  refine ⟨⟨h.queue, (List.nodup_cons.mp hnodup).2, ?_, by simp, h.idle_eq⟩,
    (List.nodup_cons.mp hnodup).1, ?_⟩
  · intro g hg
    apply h.lt g (hperm.mem_iff.mpr (List.mem_cons_of_mem _ hg))
  · apply h.lt f (hperm.mem_iff.mpr List.mem_cons_self)

/-- Callbacks own no fibers. -/
theorem owned_spawn (calls : List (Callback α)) :
  Owned (fibers ++ calls.map Callback.entry) cb idle f ↔ Owned fibers cb idle f
  := by
  simp [Owned, fibersOf_append]

end HoldsQueue

/-! ### Executing a segment -/

/-- The fiber of a callback in progress once it has executed a segment. -/
def Progress.fiberAfter (p : Progress α) : Fiber (Callback α) :=
  p.todo.ending.apply ⟨.exec, some (.task p.cb), .entry⟩

/-- A callback behind its last segment has ended. -/
theorem Progress.finished_fiberAfter {p : Progress α} (h : p.todo.rest? = none) :
  p.fiberAfter.mState.Finished
  := by
  obtain ⟨cb, todo⟩ := p
  cases todo with
  | ret l calls => apply Fiber.State.finished_term
  | throw l calls => apply Fiber.State.finished_except
  | yield l calls rest => simp [Callback.rest?] at h

/-- A callback that has ended does not leave its fiber ready. -/
theorem Progress.not_ready_fiberAfter {p : Progress α} (h : p.todo.rest? = none) :
  p.fiberAfter.mState ≠ .ready
  := by
  intro hready
  have hfin := p.finished_fiberAfter h
  simp [hready] at hfin

/-- A callback with segments left is suspended. -/
theorem Progress.fiberAfter_eq {p : Progress α} {r : Callback α} (h : p.todo.rest? = some r) :
  p.fiberAfter = Progress.suspended ⟨p.cb, r⟩
  := by
  obtain ⟨cb, todo⟩ := p
  cases todo with
  | ret l calls => simp [Callback.rest?] at h
  | throw l calls => simp [Callback.rest?] at h
  | yield l calls rest =>
      obtain rfl : rest = r := by simpa [Callback.rest?] using h
      rfl

/-- One that has yielded does. -/
theorem Progress.ready_fiberAfter {p : Progress α} {r : Callback α}
    (h : p.todo.rest? = some r) :
  p.fiberAfter.mState = .ready
  := by
  rw [p.fiberAfter_eq h]
  rfl

/-- The events of a segment executed in the fiber `f`. -/
def Progress.events (f : FiberId) (p : Progress α) : List (Event (Callback α)) :=
  .segment ⟨f, f, some (.task p.cb), .task p.todo⟩ ::
    p.todo.calls.map fun c => .scheduler (some (.cb (.task c))) (-1)

namespace RunState

/-- The state behind a segment executed in the fiber `f`. -/
def afterSegment (s : RunState (Callback α)) (f : FiberId) (p : Progress α) :
    RunState (Callback α) :=
  { s with
    heap := Function.update s.heap f p.fiberAfter
    mFibers := s.mFibers ++ p.todo.calls.map Callback.entry
    tFiber := s.mainFiber
    trace := s.trace ++ p.events f }

theorem foldl_schedule (calls : List (Callback α)) (s : RunState (Callback α)) :
  (calls.map Callback.schedule).foldl call s
    = { s with
        mFibers := s.mFibers ++ calls.map Callback.entry
        trace := s.trace ++ calls.map fun c => .scheduler (some (.cb (.task c))) (-1) }
  := by
  induction calls generalizing s with
  | nil => simp
  | cons c calls ih =>
      rw [List.map_cons, List.foldl_cons, ih]
      simp [call, schedule, Callback.schedule, Callback.entry, Scheduler.scheduler,
        Scheduler.schedulerNolock, Task.NonNull]

/-- The fiber `f` is at the point `todo` of the callback `cb`, at its entry or suspended. -/
def At (fb : Fiber (Callback α)) (p : Progress α) : Prop :=
  fb.mState ≠ .exec ∧ fb.mCb = some (.task p.cb) ∧
    (fb.mCtx = .entry ∧ p.todo = p.cb ∨ fb.mCtx = .suspended (.task p.todo))

theorem ending_apply (e : Ending (Callback α)) (fb fb' : Fiber (Callback α))
    (h : fb.mCb = fb'.mCb) :
  e.apply fb = e.apply fb'
  := by
  cases e <;> simp [Ending.apply, Fiber.yieldToReady, Fiber.yeidToHold, Fiber.mainFuncReturn,
    Fiber.mainFuncThrow, Fiber.swapOut, h]

/-- A switch into the fiber of a callback in progress executes its next segment. -/
theorem swapInActive_eq {s : RunState (Callback α)} {f : FiberId} {p : Progress α}
    (h : At (s.heap f) p) :
  s.swapInActive Callback.behave f = some (s.afterSegment f p)
  := by
  obtain ⟨hexec, hcb, hctx⟩ := h
  have hseg : ∀ t : RunState (Callback α), t.tFiber = f → (t.heap f).mCb = some (.task p.cb) →
      t.segment Callback.behave f (.task p.todo) = t.afterSegment f p := by
    rintro t rfl ht
    simp only [segment, Callback.behave, foldl_schedule, log, leave, set, setThis,
      afterSegment, Progress.events, ht, Progress.fiberAfter, List.append_assoc,
      List.cons_append, List.nil_append]
    rw [ending_apply _ (t.heap t.tFiber) ⟨.exec, some (.task p.cb), .entry⟩ ht]
  have hresume : ∀ t : RunState (Callback α), t.tFiber = f →
      (t.heap f).mCb = some (.task p.cb) → (t.heap f).mCtx = (s.heap f).mCtx →
      t.resume Callback.behave f = some (t.afterSegment f p) := by
    intro t ht htcb htctx
    obtain ⟨hentry, htodo⟩ | hsusp := hctx
    · rw [resume, htctx, hentry]
      simp only [htcb]
      rw [← htodo, hseg t ht htcb]
    · rw [resume, htctx, hsusp]
      simp only
      rw [hseg t ht htcb]
  have hswap : (s.heap f).swapIn = some { s.heap f with mState := .exec } :=
    Fiber.swapIn_eq_some.mpr ⟨hexec, rfl⟩
  rw [swapInActive, swapIn, hswap, Option.bind_some, hresume _ rfl]
  · simp [afterSegment, setThis, set]
  · simp [setThis, set, hcb]
  · simp [setThis, set]

/-- The loop holds the queue `q` of the abstract machine. -/
def Simulates (s : RunState (Callback α)) (q : List (Progress α)) : Prop :=
  HoldsQueue s.heap s.next s.mFibers s.cbFiber s.idleFiber q

/-- Behind a segment the queue holds the callbacks that it has scheduled, too. -/
theorem holdsQueue_afterSegment {s : RunState (Callback α)} {q : List (Progress α)}
    {f : FiberId} {cb : Option FiberId}
    (h : HoldsQueue s.heap s.next s.mFibers cb s.idleFiber q)
    (hf : ¬ HoldsQueue.Owned s.mFibers cb s.idleFiber f) (p : Progress α) :
  HoldsQueue (s.afterSegment f p).heap s.next (s.afterSegment f p).mFibers cb
    s.idleFiber (q ++ p.todo.calls.map Progress.start)
  := by
  apply HoldsQueue.spawn
  apply h.update hf

/-- A callback with segments left is queued again, at the end. -/
theorem holdsQueue_requeue {s : RunState (Callback α)} {q : List (Progress α)}
    {f : FiberId} {cb : Option FiberId}
    (h : HoldsQueue s.heap s.next s.mFibers cb s.idleFiber q)
    (hf : ¬ HoldsQueue.Owned s.mFibers cb s.idleFiber f) (hlt : f < s.next) {p : Progress α}
    {r : Callback α} (hr : p.todo.rest? = some r) :
  HoldsQueue (s.afterSegment f p).heap s.next
    ((s.afterSegment f p).schedule (some (.fiber f)) (-1)).mFibers cb s.idleFiber
    (p.turn.push q)
  := by
  have hpush : p.turn.push q = q ++ p.todo.calls.map Progress.start ++ [⟨p.cb, r⟩] := by
    simp [RoundRobin.Turn.push, Progress.turn, hr]
  have hfibers : ((s.afterSegment f p).schedule (some (.fiber f)) (-1)).mFibers
      = (s.afterSegment f p).mFibers ++ [⟨.fiber f, -1⟩] := by
    simp [schedule, Scheduler.scheduler, Scheduler.schedulerNolock, RunState.afterSegment,
      Task.NonNull, hlt]
  rw [hpush, hfibers]
  apply (holdsQueue_afterSegment h hf p).push _ hlt
  · simp only [RunState.afterSegment, Function.update_self]
    apply p.fiberAfter_eq hr
  · rw [RunState.afterSegment, HoldsQueue.owned_spawn]
    apply hf

end RunState

/-! ### The simulation of an iteration -/

/-- The segments of tasks executed in a trace; the idle fiber is left out. -/
def taskExecutions {κ : Type} (trace : List (Event κ)) : List (Execution κ) :=
  trace.filterMap fun
    | .segment ⟨this, host, cb, .task k⟩ => some ⟨this, host, cb, .task k⟩
    | _ => none

theorem taskExecutions_append {κ : Type} (es es' : List (Event κ)) :
  taskExecutions (es ++ es') = taskExecutions es ++ taskExecutions es'
  := List.filterMap_append

/-- The execution of a segment of a callback in progress in the fiber `f`. -/
def Progress.execution (f : FiberId) (p : Progress α) : Execution (Callback α) :=
  ⟨f, f, some (.task p.cb), .task p.todo⟩

@[simp]
theorem Progress.taskExecutions_events (f : FiberId) (p : Progress α) :
  taskExecutions (p.events f) = [p.execution f]
  := by
  simp [taskExecutions, Progress.events, Progress.execution, List.filterMap_map]

namespace RunState

/-- What an iteration that serves the callback in progress `p` leads to. -/
def Turned (s s' : RunState (Callback α)) (p : Progress α) (q : List (Progress α)) : Prop :=
  s'.Simulates (p.turn.push q) ∧
    ∃ f, taskExecutions s'.trace = taskExecutions s.trace ++ [p.execution f]

theorem push_of_none {p : Progress α} (h : p.todo.rest? = none) (q : List (Progress α)) :
  p.turn.push q = q ++ p.todo.calls.map Progress.start
  := by
  simp [RoundRobin.Turn.push, Progress.turn, h]

/-- The branch of a fiber serves the callback suspended in it. -/
theorem runFiber_turned {s : RunState (Callback α)} {f : FiberId} {p : Progress α}
    {q : List (Progress α)} (hs : s.Simulates q) (hat : At (s.heap f) p)
    (hf : ¬ HoldsQueue.Owned s.mFibers s.cbFiber s.idleFiber f) (hlt : f < s.next) :
  ∃ s', s.runFiber Callback.behave f = some s' ∧ Turned s s' p q
  := by
  use (s.afterSegment f p).settleFiber f
  constructor
  · rw [runFiber, swapInActive_eq hat]
    rfl
  have hheap : (s.afterSegment f p).heap f = p.fiberAfter := Function.update_self ..
  cases hrest : p.todo.rest? with
  | none =>
      have hfin := Progress.finished_fiberAfter hrest
      have hready := p.not_ready_fiberAfter hrest
      have hsettle : (s.afterSegment f p).settleFiber f = s.afterSegment f p := by
        rw [settleFiber, hheap, if_neg hready, holdUnlessFinished, hheap, if_pos hfin]
      rw [hsettle]
      constructor
      · rw [push_of_none hrest]
        apply holdsQueue_afterSegment hs hf
      · use f
        simp [RunState.afterSegment, taskExecutions_append]
  | some r =>
      have hready := p.ready_fiberAfter hrest
      rw [settleFiber, hheap, if_pos hready]
      constructor
      · apply holdsQueue_requeue hs hf hlt hrest
      · use f
        simp [schedule, RunState.afterSegment, taskExecutions_append]
        simp [taskExecutions]

/-- The branch of a callback, once `f` has been made its `cb_fiber`. -/
theorem swapIn_settleCb_turned {s : RunState (Callback α)} {f : FiberId} {p : Progress α}
    {q : List (Progress α)} (hat : At (s.heap f) p)
    (hs : HoldsQueue s.heap s.next s.mFibers none s.idleFiber q)
    (hf : ¬ HoldsQueue.Owned s.mFibers none s.idleFiber f) (hlt : f < s.next)
    (hcb : s.cbFiber = some f) :
  ∃ s', (s.swapInActive Callback.behave f).bind (settleCb f) = some s' ∧ Turned s s' p q
  := by
  rw [swapInActive_eq hat, Option.bind_some]
  have hheap : (s.afterSegment f p).heap f = p.fiberAfter := Function.update_self ..
  cases hrest : p.todo.rest? with
  | none =>
      have hfin := Progress.finished_fiberAfter hrest
      have hready := p.not_ready_fiberAfter hrest
      have hreset : p.fiberAfter.reset none = some (Fiber.new none) :=
        Fiber.reset_eq_some.mpr ⟨hfin.resettable, rfl⟩
      use (s.afterSegment f p).set f (Fiber.new none)
      constructor
      · rw [settleCb, hheap, if_neg hready, if_pos hfin, hreset]
        rfl
      constructor
      · rw [push_of_none hrest]
        have hcb' : ((s.afterSegment f p).set f (Fiber.new none)).cbFiber = some f := hcb
        rw [Simulates, hcb']
        apply HoldsQueue.keep
        · apply HoldsQueue.update (holdsQueue_afterSegment hs hf p)
          apply (HoldsQueue.owned_spawn _).not.mpr hf
        · apply (HoldsQueue.owned_spawn _).not.mpr hf
        · apply hlt
        · apply Function.update_self
      · use f
        simp [set, RunState.afterSegment, taskExecutions_append]
  | some r =>
      have hready := p.ready_fiberAfter hrest
      use ((s.afterSegment f p).schedule (some (.fiber f)) (-1)).setCbFiber none
      constructor
      · rw [settleCb, hheap, if_pos hready]
      constructor
      · apply holdsQueue_requeue hs hf hlt hrest
      · use f
        simp [setCbFiber, schedule, RunState.afterSegment, taskExecutions_append]
        simp [taskExecutions]

/-- The branch of a callback starts it, in a fiber that nothing else holds. -/
theorem runCb_turned {s : RunState (Callback α)} {c : Callback α} {q : List (Progress α)}
    (hs : s.Simulates q) :
  ∃ s', s.runCb Callback.behave (.task c) = some s' ∧ Turned s s' (.start c) q
  := by
  have hlog : taskExecutions (s.log (.start (.task c))).trace = taskExecutions s.trace := by
    simp [log, taskExecutions]
  rw [runCb]
  cases hcb : s.cbFiber with
  | some f =>
      have hfb : s.heap f = Fiber.new none := hs.cb_eq f (by simp [hcb])
      obtain ⟨hq, hf, hlt⟩ : HoldsQueue s.heap s.next s.mFibers none s.idleFiber q ∧
          ¬ HoldsQueue.Owned s.mFibers none s.idleFiber f ∧ f < s.next := by
        rw [Simulates, hcb] at hs
        apply hs.take_cb
      have hbind : bindCb (.task c) (s.log (.start (.task c)))
          = some (f, (s.log (.start (.task c))).set f (Fiber.new (some (.task c)))) := by
        simp only [bindCb, log, hcb, hfb]
        rfl
      rw [hbind, Option.bind_some]
      have hat : At (((s.log (.start (.task c))).set f (Fiber.new (some (.task c)))).heap f)
          (.start c) := by
        simp [set, At, Fiber.new, Progress.start]
      obtain ⟨s', hs', hsim, g, htrace⟩ := swapIn_settleCb_turned hat
        (hq.update hf (Fiber.new (some (.task c)))) hf hlt hcb
      exact ⟨s', hs', hsim, g, htrace.trans (congrArg (· ++ _) hlog)⟩
  | none =>
      have hbind : bindCb (.task c) (s.log (.start (.task c)))
          = some (s.next, ((s.log (.start (.task c))).newFiber (some (.task c))).setCbFiber
              (some s.next)) := by
        simp only [bindCb, log, hcb]
      rw [hbind, Option.bind_some]
      rw [Simulates, hcb] at hs
      have hat : At ((((s.log (.start (.task c))).newFiber (some (.task c))).setCbFiber
          (some s.next)).heap s.next) (.start c) := by
        simp [newFiber, setCbFiber, log, At, Fiber.new, Progress.start]
      have hf : ¬ HoldsQueue.Owned s.mFibers none s.idleFiber s.next :=
        fun hmem => Nat.lt_irrefl _ (hs.lt s.next hmem)
      obtain ⟨s', hs', hsim, g, htrace⟩ := swapIn_settleCb_turned hat
        (hs.alloc (Fiber.new (some (.task c)))) hf (Nat.lt_succ_self _) rfl
      exact ⟨s', hs', hsim, g, htrace.trans (congrArg (· ++ _) hlog)⟩

/-- An iteration of the loop is a turn of the abstract machine. -/
theorem Simulates.iteration {s : RunState (Callback α)} {p : Progress α}
    {q : List (Progress α)} (hs : s.Simulates (p :: q)) (tid : ℤ) :
  ∃ s', s.iteration tid Callback.behave = .running s' ∧ Turned s s' p q
  := by
  have hqueue := hs.queue
  rcases hfibers : s.mFibers with _ | ⟨ft, rest⟩
  · rw [hfibers] at hqueue
    cases hqueue
  rw [hfibers] at hqueue
  rw [Simulates, hfibers] at hs
  have htail := hs.tail
  cases hqueue with
  | cons hft _ =>
      cases hft with
      | cb c =>
          obtain ⟨s', hs', hturned⟩ := runCb_turned (c := c)
            (s := { s with mFibers := rest }) htail
          use s'
          constructor
          · have hpass : ¬ (Callback.entry c).PassedOver s.heap tid := by
              simp [FiberAndThread.PassedOver, Callback.entry]
            simp only [RunState.iteration, hfibers, scan_cons hpass]
            simp only [Callback.entry, hs', Outcome.ofOption]
          · apply hturned
      | @fiber f _ hfb =>
          obtain ⟨hf, hlt⟩ := hs.not_owned_of_cons
          have hat : At (s.heap f) p := by
            rw [hfb]
            simp [At, Progress.suspended]
          obtain ⟨s', hs', hturned⟩ := runFiber_turned
            (s := { s with mFibers := rest }) htail hat hf hlt
          use s'
          constructor
          · have hpass : ¬ (⟨.fiber f, -1⟩ : FiberAndThread _).PassedOver s.heap tid := by
              simp [FiberAndThread.PassedOver, hfb, Progress.suspended]
            have hready : ¬ (s.heap f).mState.Finished := by
              simp [hfb, Progress.suspended]
            simp only [RunState.iteration, hfibers, scan_cons hpass, hready, if_false, hs',
              Outcome.ofOption]
          · apply hturned

/-- With an empty queue the idle fiber is woken once, and then the loop is left. -/
theorem Simulates.idle {s : RunState (Callback α)} (hs : s.Simulates []) (tid : ℤ) :
  ∃ t, s.iteration tid Callback.behave = .running t ∧
    t.iteration tid Callback.behave = .returned t ∧ t.mFibers = [] ∧
    taskExecutions t.trace = taskExecutions s.trace
  := by
  have hfibers : s.mFibers = [] := List.forall₂_nil_right_iff.mp hs.queue
  let t : RunState (Callback α) := { s with
    heap := Function.update s.heap s.idleFiber ⟨.term, none, .finished⟩
    tFiber := s.mainFiber
    trace := s.trace ++ [.segment ⟨s.idleFiber, s.idleFiber, some .idle, .idle⟩] }
  have hidle : s.runIdle Callback.behave = some t := by
    simp [runIdle, swapInIdle, swapIn, hs.idle_eq, Fiber.new, Fiber.swapIn, resume, segment,
      set, setThis, Callback.behave, Scheduler.idle, leave, log, Ending.apply,
      Fiber.mainFuncReturn, Fiber.swapOut, holdUnlessFinished, t]
  have hterm : (t.heap t.idleFiber).mState = .term := by
    simp [t]
  use t
  refine ⟨?_, ?_, hfibers, ?_⟩
  · simp [RunState.iteration, hfibers, scan, idleOrBreak, hs.idle_eq, Fiber.new, hidle,
      Outcome.ofOption]
  · have hfibers' : t.mFibers = [] := hfibers
    simp [RunState.iteration, hfibers', scan, idleOrBreak, hterm]
  · simp [t, taskExecutions]

/-- The loop serves the queue of the abstract machine, in its order, and then returns. -/
theorem Simulates.loop {s : RunState (Callback α)} {q os : List (Progress α)}
    (hq : RoundRobin.Serves Progress.turn q os) (hs : s.Simulates q) (tid : ℤ) :
  ∃ s', (∀ n, s.loop tid (List.replicate (os.length + 2 + n) Callback.behave) = .returned s') ∧
    (∀ n < os.length + 2, ∃ t, s.loop tid (List.replicate n Callback.behave) = .running t) ∧
    s'.mFibers = [] ∧
    ∃ es, taskExecutions s'.trace = taskExecutions s.trace ++ es ∧
      List.Forall₂ (fun p e => ∃ f, e = Progress.execution f p) os es
  := by
  induction hq generalizing s with
  | nil =>
      obtain ⟨t, hfirst, hsecond, hempty, htrace⟩ := hs.idle tid
      use t
      refine ⟨fun n => ?_, fun n hn => ?_, hempty, [], by simpa using htrace, .nil⟩
      · rw [show ([] : List (Progress α)).length + 2 + n = n + 1 + 1 by simp; omega]
        simp [List.replicate_succ, RunState.loop, hfirst, hsecond]
      · obtain rfl | rfl : n = 0 ∨ n = 1 := by
          simp only [List.length_nil] at hn
          omega
        · exact ⟨s, rfl⟩
        · exact ⟨t, by simp [RunState.loop, hfirst]⟩
  | @cons p q os _ ih =>
      obtain ⟨t, ht, hsim, f, htrace⟩ := hs.iteration tid
      obtain ⟨s', hreturned, hrunning, hempty, es, hes, hall⟩ := ih hsim
      use s'
      refine ⟨fun n => ?_, fun n hn => ?_, hempty, p.execution f :: es, ?_, .cons ⟨f, rfl⟩ hall⟩
      · rw [show (p :: os).length + 2 + n = os.length + 2 + n + 1 by simp; omega]
        simp [List.replicate_succ, RunState.loop, ht, hreturned n]
      · cases n with
        | zero => exact ⟨s, rfl⟩
        | succ n =>
            obtain ⟨u, hu⟩ := hrunning n (by simpa using hn)
            use u
            simp [List.replicate_succ, RunState.loop, ht, hu]
      · rw [hes, htrace, List.append_assoc, List.singleton_append]

end RunState

/-! ### The result on `run` -/

/-- The loop starts out with the callbacks of the queue. -/
theorem Scheduler.enter_simulates {s : Scheduler (Callback α)} {cs : List (Callback α)}
    (hs : s.mFibers = cs.map Callback.entry) (main : FiberId) :
  (s.enter main).Simulates (cs.map Progress.start)
  := by
  have hstart : HoldsQueue (Function.update s.heap s.next (Fiber.new (some .idle))) (s.next + 1)
      [] none s.next [] := by
    refine ⟨.nil, ?_, ?_, by simp, Function.update_self ..⟩
    · simp [fibersOf]
    · simp [fibersOf]
  have h := hstart.spawn cs
  rw [List.nil_append, List.nil_append, ← hs] at h
  apply h

/-- `run` on a queue of callbacks executes the segments in the order in which the
round-robin machine serves them, each in the fiber of its callback, which `GetThis()`
returns, and then returns with an empty queue. In this order every segment occurs exactly
once, and the segments of each callback occur in their own order. -/
theorem Scheduler.run_serves {s : Scheduler (Callback α)} {cs : List (Callback α)}
    (hs : s.mFibers = cs.map Callback.entry) (tid : ℤ) (main : FiberId) :
  ∃ os, RoundRobin.Serves Progress.turn (cs.map Progress.start) os ∧
    os.Perm (Callback.unfolds cs) ∧
    (∀ c, (c ∈ cs ∨ ∃ p ∈ os, c ∈ p.todo.calls) → (Callback.turns c c).Sublist os) ∧
    ∃ s', (∀ n, s.run tid main (List.replicate (os.length + 2 + n) Callback.behave)
        = .returned s') ∧
      (∀ n < os.length + 2, ∃ t, s.run tid main (List.replicate n Callback.behave)
        = .running t) ∧
      s'.mFibers = [] ∧
      List.Forall₂ (fun p e => ∃ f, e = Progress.execution f p) os (taskExecutions s'.trace)
  := by
  obtain ⟨os, hos, -⟩ := Progress.finiteWork.serves (cs.map Progress.start)
  use os, hos
  refine ⟨?_, ?_, ?_⟩
  · have hperm := hos.perm Progress.unfolds_turn
    rw [List.map_id, List.flatMap_map] at hperm
    rw [Callback.unfolds_eq]
    apply hperm
  · rintro c (hc | ⟨p, hp, hc⟩)
    · apply hos.sublist (t := .start c) Progress.turns_turn
      apply List.mem_map_of_mem hc
    · apply hos.sublist_spawned (u := .start c) Progress.turns_turn hp
      apply List.mem_map_of_mem hc
  · obtain ⟨s', hreturned, hrunning, hempty, es, hes, hall⟩ :=
      RunState.Simulates.loop hos (Scheduler.enter_simulates hs main) tid
    refine ⟨s', hreturned, hrunning, hempty, ?_⟩
    rw [hes]
    apply hall

/-- A scheduler with two callbacks, of which one yields and schedules a third one. -/
def Scheduler.twoCallbacks : Scheduler (Callback ℕ) where
  heap _ := ⟨.exec, none, .entry⟩
  next := 1
  mFibers := [Callback.entry (.yield 0 [.ret 2 []] (.ret 3 [])), Callback.entry (.throw 1 [])]
  mActiveThreadCount := 0
  mIdleThreadCount := 0
  mStoping := false
  mAutoStop := false

theorem Scheduler.run_serves_twoCallbacks :
  ∃ s', Scheduler.twoCallbacks.run 7 0 (List.replicate 6 Callback.behave) = .returned s' ∧
    s'.mFibers = []
  := by
  have hqueue : Scheduler.twoCallbacks.mFibers =
      [.yield 0 [.ret 2 []] (.ret 3 []), .throw 1 []].map Callback.entry := rfl
  obtain ⟨os, -, hperm, -, s', hreturned, -, hempty, -⟩ := Scheduler.run_serves hqueue 7 0
  have hlen : os.length = 4 := by
    rw [hperm.length_eq]
    rfl
  have h := hreturned 0
  rw [hlen] at h
  exact ⟨s', h, hempty⟩

end WbServer
