import WbServer.Scheduler.Run

/-!
# Which runs leave the queue empty

`Scheduler::run` leaves its loop from the branch for "no task to execute", when the idle
fiber has ended. An entry of a finished fiber that is dequeued falls into the same branch.
The first one only wakes the idle fiber, a later one makes `run` return, whatever is left
in the queue.

`Scheduler.run_drained_iff` describes the runs that return with an empty queue by a
condition on the states at the head of the loop. Nothing is lost otherwise: every callback
ever queued has been started or is still in the queue (`RunState.Accounts`).
-/

namespace WbServer

variable {κ : Type}

/-! ### Accounting for callbacks -/

/-- The callbacks handed to `scheduler` in a trace. -/
def scheduledCallbacks (trace : List (Event κ)) : List (Code κ) :=
  trace.filterMap fun
    | .scheduler (some (.cb c)) _ => some c
    | _ => none

/-- The callbacks started in a trace. -/
def startedCallbacks (trace : List (Event κ)) : List (Code κ) :=
  trace.filterMap fun
    | .start c => some c
    | _ => none

namespace RunState

/-- The callbacks `cs` queued at the beginning and those scheduled since then have been
started or are in the queue. -/
def Accounts (cs : List (Code κ)) (s : RunState κ) : Prop :=
  (cs ++ scheduledCallbacks s.trace).Perm (startedCallbacks s.trace ++ callbacks s.mFibers)

/-- The entries of the queue are not null. -/
def Valid (s : RunState κ) : Prop :=
  ∀ ft ∈ s.mFibers, ft.task.NonNull s.next

/-- What an operation on the fiber `f` may do to the state: it changes no other fiber that
exists and removes nothing from the queue. -/
structure Touches (f : FiberId) (s s' : RunState κ) : Prop where
  next_le : s.next ≤ s'.next
  heap_eq : ∀ g < s.next, g ≠ f → s'.heap g = s.heap g
  mem : ∀ ft ∈ s.mFibers, ft ∈ s'.mFibers
  valid : s.Valid → s'.Valid
  accounts : ∀ cs, s.Accounts cs → s'.Accounts cs

/-- Nothing is touched. -/
theorem Touches.refl (f : FiberId) (s : RunState κ) :
  Touches f s s
  where
  next_le := le_rfl
  heap_eq _ _ _ := rfl
  mem _ h := h
  valid h := h
  accounts _ h := h

/-- Two parts of an iteration that touch the same fiber. -/
theorem Touches.trans {f : FiberId} {s t u : RunState κ} (h : Touches f s t)
    (h' : Touches f t u) :
  Touches f s u
  where
  next_le := le_trans h.next_le h'.next_le
  heap_eq g hg hgf := by
    rw [h'.heap_eq g (lt_of_lt_of_le hg h.next_le) hgf, h.heap_eq g hg hgf]
  mem ft hft := h'.mem ft (h.mem ft hft)
  valid hs := h'.valid (h.valid hs)
  accounts cs hs := h'.accounts cs (h.accounts cs hs)

/-- The fiber itself is changed. -/
theorem Touches.set (f : FiberId) (fb : Fiber κ) (s : RunState κ) :
  Touches f s (s.set f fb)
  where
  next_le := le_rfl
  heap_eq _ _ hgf := Function.update_of_ne hgf _ _
  mem _ h := h
  valid h := h
  accounts _ h := h

theorem Touches.setThis (f g : FiberId) (s : RunState κ) :
  Touches f s (s.setThis g)
  := { Touches.refl f s with }

theorem Touches.setCbFiber (f : FiberId) (g : Option FiberId) (s : RunState κ) :
  Touches f s (s.setCbFiber g)
  := { Touches.refl f s with }

theorem accounts_log_segment (cs : List (Code κ)) (e : Execution κ) {s : RunState κ}
    (h : s.Accounts cs) :
  (s.log (.segment e)).Accounts cs
  := by
  simpa [Accounts, log, scheduledCallbacks, startedCallbacks] using h

/-- A callback that is scheduled is accounted for in the queue. -/
theorem accounts_schedule (cs : List (Code κ)) (fc : Option (Task κ)) (thread : ℤ)
    {s : RunState κ} (h : s.Accounts cs) :
  (s.schedule fc thread).Accounts cs
  := by
  simp only [Accounts, schedule, Scheduler.scheduler, Scheduler.schedulerNolock_eq] at h ⊢
  cases fc with
  | none => simpa [scheduledCallbacks, startedCallbacks, Scheduler.entries,
      Scheduler.schedulerNolock] using h
  | some t =>
      cases t with
      | fiber f =>
          simp only [scheduledCallbacks, startedCallbacks, Scheduler.entries,
            Scheduler.schedulerNolock]
          split
          · simpa [scheduledCallbacks, startedCallbacks] using h
          · simpa [scheduledCallbacks, startedCallbacks] using h
      | cb c =>
          have h' := h.append_right [c]
          simpa [scheduledCallbacks, startedCallbacks, Scheduler.entries,
            Scheduler.schedulerNolock, Task.NonNull] using h'

theorem Touches.schedule (f : FiberId) (fc : Option (Task κ)) (thread : ℤ)
    (s : RunState κ) :
  Touches f s (s.schedule fc thread)
  where
  next_le := le_rfl
  heap_eq _ _ _ := rfl
  mem ft h := by
    simp [RunState.schedule, Scheduler.scheduler, Scheduler.schedulerNolock_eq, h]
  valid h ft hft := by
    simp only [RunState.schedule, Scheduler.scheduler, Scheduler.schedulerNolock_eq,
      List.mem_append] at hft
    obtain hft | hft := hft
    · apply h ft hft
    · obtain ⟨-, -, hnull⟩ := Scheduler.mem_entries hft
      apply hnull
  accounts cs h := accounts_schedule cs fc thread h

theorem Touches.newFiber (f : FiberId) (cb : Option (Code κ)) (s : RunState κ) :
  Touches f s (s.newFiber cb)
  where
  next_le := Nat.le_succ _
  heap_eq _ hg _ := Function.update_of_ne (Nat.ne_of_lt hg) _ _
  mem _ h := h
  valid h ft hft := (h ft hft).mono (Nat.le_succ _)
  accounts _ h := h

/-- The calls of a task add to the queue only. -/
theorem Touches.calls (f : FiberId) (calls : List (Call κ)) (s : RunState κ) :
  Touches f s (calls.foldl call s)
  := by
  induction calls generalizing s with
  | nil => apply Touches.refl
  | cons c calls ih =>
      apply Touches.trans _ (ih (s.call c))
      cases c with
      | scheduler fc thread => apply Touches.schedule
      | newFiber cb => apply Touches.newFiber

/-! ### What a switch does -/

/-- The end of a segment changes the running fiber only. -/
theorem Touches.leave {f : FiberId} {s : RunState κ} (h : s.tFiber = f) (e : Ending κ) :
  Touches f s (s.leave e)
  := by
  subst h
  apply (Touches.set s.tFiber (e.apply (s.heap s.tFiber)) s).trans
  apply Touches.setThis

/-- A segment changes the running fiber only. -/
theorem Touches.segment (behave : Behaviour κ) {f : FiberId} {s : RunState κ}
    (h : s.tFiber = f) (host : FiberId) (c : Code κ) :
  Touches f s (s.segment behave host c)
  := by
  have hlog : Touches f s (s.log (.segment ⟨s.tFiber, host, (s.heap s.tFiber).mCb, c⟩)) := {
    Touches.refl f s with accounts := fun cs hs => accounts_log_segment cs _ hs }
  apply hlog.trans
  apply (Touches.calls f (behave s.tFiber c).calls _).trans
  apply Touches.leave
  rw [calls_tFiber]
  apply h

/-- So does the resumption of a fiber. -/
theorem Touches.resume {behave : Behaviour κ} {f : FiberId} {s s' : RunState κ}
    (ht : s.tFiber = f) (h : s.resume behave f = some s') :
  Touches f s s'
  := by
  unfold RunState.resume at h
  split at h
  case h_1 =>
    split at h
    case h_1 c _ =>
      obtain rfl := Option.some.inj h
      apply Touches.segment behave ht
    case h_2 =>
      obtain rfl := Option.some.inj h
      apply Touches.leave ht
  case h_2 c _ =>
    obtain rfl := Option.some.inj h
    apply Touches.segment behave ht
  case h_3 => simp at h

/-- A `swap_in` that passes its assertion finds a fiber that is not executing. -/
theorem swapIn_spec {behave : Behaviour κ} {f : FiberId} {s s' : RunState κ}
    (h : s.swapIn behave f = some s') :
  (s.heap f).mState ≠ .exec ∧ Touches f s s'
  := by
  obtain ⟨fb, hfb, hs'⟩ := Option.bind_eq_some_iff.mp h
  obtain ⟨hexec, -⟩ := Fiber.swapIn_eq_some.mp hfb
  use hexec
  apply (Touches.set f fb s).trans
  apply (Touches.setThis f f (s.set f fb)).trans
  apply Touches.resume rfl hs'

/-- A fiber is swapped in unless it is executing, and nothing else is touched. -/
theorem swapInActive_spec {behave : Behaviour κ} {f : FiberId} {s s' : RunState κ}
    (h : s.swapInActive behave f = some s') :
  (s.heap f).mState ≠ .exec ∧ Touches f s s'
  := by
  obtain ⟨t, ht, rfl⟩ := Option.map_eq_some_iff.mp h
  obtain ⟨hexec, htouch⟩ := swapIn_spec ht
  exact ⟨hexec, { htouch with }⟩

/-- The same for the idle fiber. -/
theorem swapInIdle_spec {behave : Behaviour κ} {f : FiberId} {s s' : RunState κ}
    (h : s.swapInIdle behave f = some s') :
  (s.heap f).mState ≠ .exec ∧ Touches f s s'
  := by
  obtain ⟨t, ht, rfl⟩ := Option.map_eq_some_iff.mp h
  obtain ⟨hexec, htouch⟩ := swapIn_spec ht
  exact ⟨hexec, { htouch with }⟩

theorem Touches.holdUnlessFinished (f : FiberId) (s : RunState κ) :
  Touches f s (s.holdUnlessFinished f)
  := by
  unfold RunState.holdUnlessFinished
  split
  · apply Touches.refl
  · apply Touches.set

theorem Touches.settleFiber (f : FiberId) (s : RunState κ) :
  Touches f s (s.settleFiber f)
  := by
  unfold RunState.settleFiber
  split
  · apply Touches.schedule
  · apply Touches.holdUnlessFinished

theorem Touches.settleCb {f : FiberId} {s s' : RunState κ} (h : s.settleCb f = some s') :
  Touches f s s'
  := by
  unfold RunState.settleCb at h
  split at h
  case isTrue =>
    obtain rfl := Option.some.inj h
    apply (Touches.schedule f (some (.fiber f)) (-1) s).trans
    apply Touches.setCbFiber
  case isFalse =>
    split at h
    case isTrue =>
      obtain ⟨fb, -, rfl⟩ := Option.map_eq_some_iff.mp h
      apply Touches.set
    case isFalse =>
      obtain rfl := Option.some.inj h
      apply (Touches.set f (s.heap f).setHold s).trans
      apply Touches.setCbFiber

/-! ### What an iteration does -/

/-- The branches of fibers and of the idle fiber touch one fiber, which was not executing. -/
theorem runFiber_spec {behave : Behaviour κ} {f : FiberId} {s s' : RunState κ}
    (h : s.runFiber behave f = some s') :
  (s.heap f).mState ≠ .exec ∧ Touches f s s'
  := by
  obtain ⟨t, ht, rfl⟩ := Option.map_eq_some_iff.mp h
  obtain ⟨hexec, htouch⟩ := swapInActive_spec ht
  use hexec
  apply htouch.trans (Touches.settleFiber f t)

/-- The idle branch touches the idle fiber only. -/
theorem runIdle_spec {behave : Behaviour κ} {s s' : RunState κ}
    (h : s.runIdle behave = some s') :
  (s.heap s.idleFiber).mState ≠ .exec ∧ Touches s.idleFiber s s'
  := by
  obtain ⟨t, ht, rfl⟩ := Option.map_eq_some_iff.mp h
  obtain ⟨hexec, htouch⟩ := swapInIdle_spec ht
  use hexec
  apply htouch.trans (Touches.holdUnlessFinished _ t)

/-- The branch of a callback touches `cb_fiber`, which was not executing or did not exist. -/
theorem runCb_spec {behave : Behaviour κ} {c : Code κ} {s s' : RunState κ}
    (h : s.runCb behave c = some s') :
  ∃ f, ((s.heap f).mState ≠ .exec ∨ s.next ≤ f) ∧ Touches f (s.log (.start c)) s'
  := by
  obtain ⟨⟨f, t⟩, ht, h⟩ := Option.bind_eq_some_iff.mp h
  obtain ⟨u, hu, h⟩ := Option.bind_eq_some_iff.mp h
  obtain ⟨-, hswap⟩ := swapInActive_spec hu
  use f
  unfold bindCb at ht
  split at ht
  case h_1 g _ =>
    obtain ⟨fb, hfb, heq⟩ := Option.map_eq_some_iff.mp ht
    obtain ⟨rfl, rfl⟩ := Prod.mk.inj heq
    obtain ⟨hreset, -⟩ := Fiber.reset_eq_some.mp hfb
    constructor
    · left
      intro hexec
      rw [show (s.log (.start c)).heap = s.heap from rfl, hexec] at hreset
      simp [Fiber.State.Resettable] at hreset
    · apply (Touches.set _ fb _).trans
      apply hswap.trans (Touches.settleCb h)
  case h_2 =>
    obtain ⟨rfl, rfl⟩ := Prod.mk.inj (Option.some.inj ht)
    constructor
    · right
      apply le_rfl
    · apply (Touches.newFiber _ (some c) (s.log (.start c))).trans
      apply (Touches.setCbFiber _ _ _).trans
      apply hswap.trans (Touches.settleCb h)

/-! ### The queue along the loop -/

/-- The state after the scan has taken out an entry and left the entries `rest`. -/
theorem Valid.dequeue {tid : ℤ} {s : RunState κ} {ft : FiberAndThread κ}
    {rest : List (FiberAndThread κ)} (hs : s.Valid)
    (h : scan s.heap tid s.mFibers = some (ft, rest)) :
  { s with mFibers := rest }.Valid
  := by
  obtain ⟨pre, post, hfs, rfl, -, -⟩ := scan_eq_some h
  intro it hit
  apply hs
  rw [hfs]
  simp only [List.mem_append, List.mem_cons] at hit ⊢
  tauto

/-- The scan leaves what it passes over. -/
theorem mem_of_passedOver {tid : ℤ} {s : RunState κ} {ft it : FiberAndThread κ}
    {rest : List (FiberAndThread κ)} (h : scan s.heap tid s.mFibers = some (ft, rest))
    (hit : it ∈ s.mFibers) (hpass : it.PassedOver s.heap tid) :
  it ∈ rest
  := by
  obtain ⟨pre, post, hfs, rfl, -, hft⟩ := scan_eq_some h
  rw [hfs] at hit
  simp only [List.mem_append, List.mem_cons] at hit ⊢
  obtain hit | rfl | hit := hit
  · apply Or.inl hit
  · apply absurd hpass hft
  · apply Or.inr hit

/-- Taking a fiber from the queue loses no callback. -/
theorem Accounts.dequeue_fiber {tid : ℤ} {s : RunState κ} {cs : List (Code κ)} {f : FiberId}
    {t : ℤ} {rest : List (FiberAndThread κ)} (hs : s.Accounts cs)
    (h : scan s.heap tid s.mFibers = some (⟨.fiber f, t⟩, rest)) :
  { s with mFibers := rest }.Accounts cs
  := by
  obtain ⟨pre, post, hfs, rfl, -, -⟩ := scan_eq_some h
  simpa only [Accounts, hfs, callbacks_append, callbacks_cons_fiber] using hs

/-- A callback that is taken out is started. -/
theorem Accounts.dequeue_cb {tid : ℤ} {s : RunState κ} {cs : List (Code κ)} {c : Code κ}
    {t : ℤ} {rest : List (FiberAndThread κ)} (hs : s.Accounts cs)
    (h : scan s.heap tid s.mFibers = some (⟨.cb c, t⟩, rest)) :
  ({ s with mFibers := rest }.log (.start c)).Accounts cs
  := by
  obtain ⟨pre, post, hfs, rfl, -, -⟩ := scan_eq_some h
  have hstart : startedCallbacks (s.trace ++ [.start c]) = startedCallbacks s.trace ++ [c] := by
    simp [startedCallbacks]
  have hsched : scheduledCallbacks (s.trace ++ [.start c]) = scheduledCallbacks s.trace := by
    simp [scheduledCallbacks]
  simp only [Accounts, log, hstart, hsched] at hs ⊢
  rw [hfs] at hs
  apply hs.trans
  simp only [callbacks_append, callbacks_cons_cb, List.append_assoc, List.cons_append,
    List.nil_append]
  apply List.Perm.append_left
  apply List.perm_middle

/-- An entry that is passed over stays so while a fiber is touched that does not execute. -/
theorem Touches.passedOver {tid : ℤ} {f : FiberId} {s s' : RunState κ}
    {it : FiberAndThread κ} (h : Touches f s s') (hf : (s.heap f).mState ≠ .exec ∨ s.next ≤ f)
    (hnull : it.task.NonNull s.next) (hpass : it.PassedOver s.heap tid) :
  it.PassedOver s'.heap tid
  := by
  obtain hpin | hexec := hpass
  · apply Or.inl hpin
  · right
    obtain ⟨g | c, t⟩ := it
    case fiber =>
      have hg : g < s.next := hnull
      have hgf : g ≠ f := by
        rintro rfl
        obtain hf | hf := hf
        · apply hf hexec
        · apply absurd hg (Nat.not_lt.mpr hf)
      simpa only [h.heap_eq g hg hgf] using hexec
    case cb => apply hexec

/-- What every operation of the loop keeps: the entries that the scan passes over. -/
def KeepsPassedOver (tid : ℤ) (s s' : RunState κ) : Prop :=
  ∀ it ∈ s.mFibers, it.PassedOver s.heap tid → it ∈ s'.mFibers ∧ it.PassedOver s'.heap tid

/-- Entries stay passed over if a fiber is touched that is not executing. -/
theorem Touches.keepsPassedOver {tid : ℤ} {f : FiberId} {s s' : RunState κ}
    (h : Touches f s s') (hf : (s.heap f).mState ≠ .exec ∨ s.next ≤ f) (hs : s.Valid) :
  KeepsPassedOver tid s s'
  := by
  intro it hit hpass
  exact ⟨h.mem it hit, h.passedOver hf (hs it hit) hpass⟩

theorem KeepsPassedOver.of_dequeue {tid : ℤ} {s s' : RunState κ} {ft : FiberAndThread κ}
    {rest : List (FiberAndThread κ)} (h : scan s.heap tid s.mFibers = some (ft, rest))
    (hs' : KeepsPassedOver tid { s with mFibers := rest } s') :
  KeepsPassedOver tid s s'
  := by
  intro it hit hpass
  apply hs' it (mem_of_passedOver h hit hpass) hpass

/-- What an iteration that stays in the loop keeps. -/
structure Advances (tid : ℤ) (s s' : RunState κ) : Prop where
  valid : s'.Valid
  accounts : ∀ cs, s.Accounts cs → s'.Accounts cs
  keeps : KeepsPassedOver tid s s'

/-- The idle branch advances. -/
theorem Advances.of_idle {tid : ℤ} {behave : Behaviour κ} {s s' : RunState κ}
    (h : s.idleOrBreak behave = .running s') (hs : s.Valid) :
  Advances tid s s'
  := by
  unfold idleOrBreak at h
  split at h
  case isTrue => simp at h
  case isFalse =>
    obtain ⟨hexec, htouch⟩ := runIdle_spec (Outcome.ofOption_eq_running.mp h)
    exact ⟨htouch.valid hs, htouch.accounts, htouch.keepsPassedOver (.inl hexec) hs⟩

/-- An iteration that goes on advances. -/
theorem iteration_running {tid : ℤ} {behave : Behaviour κ} {s s' : RunState κ}
    (h : s.iteration tid behave = .running s') (hs : s.Valid) :
  Advances tid s s'
  := by
  unfold iteration at h
  split at h
  case h_1 => apply Advances.of_idle h hs
  case h_2 f t rest hscan =>
    have hrest := hs.dequeue hscan
    simp only at h
    split at h
    case isTrue =>
      have hadv : Advances tid _ _ := Advances.of_idle h hrest
      refine ⟨hadv.valid, fun cs hcs => ?_, .of_dequeue hscan hadv.keeps⟩
      apply hadv.accounts cs (hcs.dequeue_fiber hscan)
    case isFalse =>
      obtain ⟨hexec, htouch⟩ := runFiber_spec (Outcome.ofOption_eq_running.mp h)
      refine ⟨htouch.valid hrest, fun cs hcs => ?_, ?_⟩
      · apply htouch.accounts cs (hcs.dequeue_fiber hscan)
      · apply KeepsPassedOver.of_dequeue hscan
        apply htouch.keepsPassedOver (.inl hexec) hrest
  case h_3 c t rest hscan =>
    have hrest := hs.dequeue hscan
    obtain ⟨f, hf, htouch⟩ := runCb_spec (Outcome.ofOption_eq_running.mp h)
    refine ⟨htouch.valid hrest, fun cs hcs => ?_, ?_⟩
    · apply htouch.accounts cs (hcs.dequeue_cb hscan)
    · apply KeepsPassedOver.of_dequeue hscan
      have hkeeps : KeepsPassedOver tid _ _ := htouch.keepsPassedOver hf hrest
      apply hkeeps

/-- The loop is left only when the idle fiber has ended. -/
theorem idleOrBreak_returned {behave : Behaviour κ} {s s' : RunState κ}
    (h : s.idleOrBreak behave = .returned s') :
  (s.heap s.idleFiber).mState = .term ∧ s' = s
  := by
  unfold idleOrBreak at h
  split at h
  case isTrue hterm => exact ⟨hterm, (Outcome.returned.inj h).symm⟩
  case isFalse => apply absurd h (Outcome.ofOption_ne_returned _ _)

/-- The loop is left once the idle fiber has ended, when the scan takes nothing or an entry
of a finished fiber. -/
theorem iteration_returned {tid : ℤ} {behave : Behaviour κ} {s s' : RunState κ}
    (h : s.iteration tid behave = .returned s') :
  (s.heap s.idleFiber).mState = .term ∧
    ((scan s.heap tid s.mFibers = none ∧ s' = s) ∨
      ∃ f t rest, scan s.heap tid s.mFibers = some (⟨.fiber f, t⟩, rest) ∧
        (s.heap f).mState.Finished ∧ s' = { s with mFibers := rest })
  := by
  unfold iteration at h
  split at h
  case h_1 hscan =>
    obtain ⟨hterm, rfl⟩ := idleOrBreak_returned h
    exact ⟨hterm, .inl ⟨hscan, rfl⟩⟩
  case h_2 f t rest hscan =>
    simp only at h
    split at h
    case isTrue hfin =>
      obtain ⟨hterm, rfl⟩ := idleOrBreak_returned h
      exact ⟨hterm, .inr ⟨f, t, rest, hscan, hfin, rfl⟩⟩
    case isFalse => apply absurd h (Outcome.ofOption_ne_returned _ _)
  case h_3 => apply absurd h (Outcome.ofOption_ne_returned _ _)

/-! ### The condition -/

/-- At the head of the loop the idle fiber has ended and the scan takes an entry of a
finished fiber that has further entries beside it: `run` returns and leaves them. -/
def Drops (tid : ℤ) (s : RunState κ) : Prop :=
  (s.heap s.idleFiber).mState = .term ∧
    ∃ f t rest, scan s.heap tid s.mFibers = some (⟨.fiber f, t⟩, rest) ∧
      (s.heap f).mState.Finished ∧ rest ≠ []

/-- At the head of the loop the scan passes over no entry and `run` drops none. -/
def Serves (tid : ℤ) (s : RunState κ) : Prop :=
  (∀ it ∈ s.mFibers, ¬ it.PassedOver s.heap tid) ∧ ¬ s.Drops tid

/-- An iteration that stays in the loop drops nothing. -/
theorem not_drops_of_running {tid : ℤ} {behave : Behaviour κ} {s s' : RunState κ}
    (h : s.iteration tid behave = .running s') :
  ¬ s.Drops tid
  := by
  rintro ⟨hterm, f, t, rest, hscan, hfin, -⟩
  simp [iteration, hscan, hfin, idleOrBreak, hterm] at h

/-- The last iteration leaves the queue empty exactly when it serves. -/
theorem returned_drained_iff {tid : ℤ} {behave : Behaviour κ} {s s' : RunState κ}
    (h : s.iteration tid behave = .returned s') :
  s'.mFibers = [] ↔ s.Serves tid
  := by
  obtain ⟨hterm, ⟨hscan, rfl⟩ | ⟨f, t, rest, hscan, hfin, rfl⟩⟩ := iteration_returned h
  · have hpass := scan_eq_none.mp hscan
    constructor
    · intro hempty
      constructor
      · simp [hempty]
      · rintro ⟨-, f, t, rest, hscan', -⟩
        simp [hscan] at hscan'
    · rintro ⟨hclear, -⟩
      apply List.eq_nil_iff_forall_not_mem.mpr
      intro it hit
      apply hclear it hit (hpass it hit)
  · constructor
    · rintro (rfl : rest = [])
      constructor
      · intro it hit hpass
        have hmem := mem_of_passedOver hscan hit hpass
        simp at hmem
      · rintro ⟨-, g, t', rest', hscan', -, hne⟩
        obtain ⟨-, rfl⟩ := Prod.mk.inj (Option.some.inj (hscan.symm.trans hscan'))
        apply hne rfl
    · rintro ⟨-, hdrop⟩
      by_contra hne
      apply hdrop ⟨hterm, f, t, rest, hscan, hfin, hne⟩

theorem self_mem_heads (tid : ℤ) (bs : List (Behaviour κ)) (s : RunState κ) :
  s ∈ s.heads tid bs
  := by
  cases bs <;> simp [heads]

/-- The loop returns with an empty queue exactly when it serves at each of its heads. -/
theorem loop_drained_iff {tid : ℤ} {bs : List (Behaviour κ)} {s s' : RunState κ}
    (hs : s.Valid) (h : s.loop tid bs = .returned s') :
  s'.mFibers = [] ↔ ∀ t ∈ s.heads tid bs, t.Serves tid
  := by
  induction bs generalizing s with
  | nil => simp [loop] at h
  | cons behave bs ih =>
      rw [loop] at h
      rw [heads]
      cases hit : s.iteration tid behave with
      | aborted => simp [hit] at h
      | returned t =>
          obtain rfl : t = s' := by simpa [hit] using h
          simpa using returned_drained_iff hit
      | running t =>
          simp only [hit] at h
          have hadv := iteration_running hit hs
          rw [ih hadv.valid h]
          simp only [List.mem_cons, forall_eq_or_imp, iff_and_self]
          intro hserve
          refine ⟨?_, not_drops_of_running hit⟩
          -- an entry passed over now is passed over at the next head
          intro it hmem hpass
          obtain ⟨hmem', hpass'⟩ := hadv.keeps it hmem hpass
          obtain ⟨hclear, -⟩ := hserve t (self_mem_heads tid bs t)
          apply hclear it hmem' hpass'

/-- Every callback ever queued has been started when the loop returns, or it is still in
the queue. -/
theorem loop_accounts {tid : ℤ} {bs : List (Behaviour κ)} {s s' : RunState κ}
    {cs : List (Code κ)} (hs : s.Valid) (hcs : s.Accounts cs)
    (h : s.loop tid bs = .returned s') :
  s'.Accounts cs
  := by
  induction bs generalizing s with
  | nil => simp [loop] at h
  | cons behave bs ih =>
      rw [loop] at h
      cases hit : s.iteration tid behave with
      | aborted => simp [hit] at h
      | running t =>
          have hadv := iteration_running hit hs
          apply ih hadv.valid (hadv.accounts cs hcs)
          simpa only [hit] using h
      | returned t =>
          obtain rfl : t = s' := by simpa [hit] using h
          obtain ⟨-, ⟨-, rfl⟩ | ⟨f, t, rest, hscan, -, rfl⟩⟩ := iteration_returned hit
          · apply hcs
          · apply hcs.dequeue_fiber hscan

end RunState

/-! ### The result on `run` -/

namespace Scheduler

/-- The entries of the queue are not null. -/
def Valid (s : Scheduler κ) : Prop :=
  ∀ ft ∈ s.mFibers, ft.task.NonNull s.next

/-- The queue is valid at the beginning of `run()`. -/
theorem enter_valid {s : Scheduler κ} (hs : s.Valid) (main : FiberId) :
  (s.enter main).Valid
  := by
  intro ft hft
  apply (hs ft hft).mono (Nat.le_succ _)

/-- At the beginning of `run()` all callbacks are in the queue. -/
theorem enter_accounts (s : Scheduler κ) (main : FiberId) :
  (s.enter main).Accounts (callbacks s.mFibers)
  := by
  simp [RunState.Accounts, enter, scheduledCallbacks, startedCallbacks]

/-- The queue is empty, and every callback queued before or during the run has been
started as often as it was queued. -/
def Drained (s : Scheduler κ) (s' : RunState κ) : Prop :=
  s'.mFibers = [] ∧
    (callbacks s.mFibers ++ scheduledCallbacks s'.trace).Perm (startedCallbacks s'.trace)

/-- `run` returns with everything queued taken up exactly when at each head of its loop
the scan passes over no entry, and the scan does not take an entry of a finished fiber
while the idle fiber has ended and further entries are queued. -/
theorem run_drained_iff {s : Scheduler κ} {tid : ℤ} {main : FiberId}
    {bs : List (Behaviour κ)} {s' : RunState κ} (hs : s.Valid)
    (h : s.run tid main bs = .returned s') :
  s.Drained s' ↔ ∀ t ∈ (s.enter main).heads tid bs, t.Serves tid
  := by
  rw [← RunState.loop_drained_iff (enter_valid hs main) h]
  constructor
  · rintro ⟨hempty, -⟩
    apply hempty
  · intro hempty
    have hacc := RunState.loop_accounts (enter_valid hs main) (enter_accounts s main) h
    refine ⟨hempty, ?_⟩
    simpa [RunState.Accounts, hempty] using hacc

/-- Fiber `0` is the main fiber of a thread; fiber `1` has been constructed with the
callback `0`. -/
def twoFibers (f : FiberId) : Fiber ℕ :=
  match f with
  | 1 => Fiber.new (some (.task 0))
  | _ => ⟨.exec, none, .entry⟩

/-- A scheduler with the given unpinned entries over these two fibers. -/
def ofTasks (tasks : List (Task ℕ)) : Scheduler ℕ where
  heap := twoFibers
  next := 2
  mFibers := tasks.map fun t => ⟨t, -1⟩
  mActiveThreadCount := 0
  mIdleThreadCount := 0
  mStoping := false
  mAutoStop := false

/-- Tasks that return at once. -/
def returning : Behaviour ℕ :=
  fun _ _ => Scheduler.idle

theorem run_drained_iff_fiber_callback :
  ∃ s', (ofTasks [.fiber 1, .cb (.task 1)]).run 7 0 (List.replicate 4 returning)
      = .returned s' ∧
    ((ofTasks [.fiber 1, .cb (.task 1)]).Drained s' ↔
      ∀ t ∈ ((ofTasks [.fiber 1, .cb (.task 1)]).enter 0).heads 7 (List.replicate 4 returning),
        t.Serves 7)
  := by
  have hvalid : (ofTasks [.fiber 1, .cb (.task 1)]).Valid := by
    intro ft hft
    simp only [ofTasks, List.map_cons, List.map_nil, List.mem_cons, List.not_mem_nil,
      or_false] at hft
    obtain rfl | rfl := hft
    · decide
    · trivial
  exact ⟨_, rfl, run_drained_iff hvalid rfl⟩

/-- A fiber queued three times and a callback behind it: the second entry of the fiber
wakes the idle fiber, the third one ends `run`, and the callback is never started. -/
theorem run_strands_callback :
  BaseIdle returning ∧
    ∃ s', (ofTasks [.fiber 1, .fiber 1, .fiber 1, .cb (.task 1)]).run 7 0
        (List.replicate 3 returning) = .returned s' ∧
      s'.mFibers = [⟨.cb (.task 1), -1⟩] ∧ startedCallbacks s'.trace = []
  := ⟨fun _ => rfl, _, rfl, rfl, rfl⟩

end Scheduler

end WbServer
