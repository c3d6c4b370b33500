import WbServer.Scheduler.Reuse
import WbServer.Scheduler.Tickets

/-!
# The critical sections of the scheduler

`m_fibers` is accessed in critical sections of `m_mutex`: by the scan, entry by entry, and by
`Scheduler::scheduler`. The states of the fibers are not guarded, so that they change while a
scan is in progress.

Even so no entry is lost or taken twice, and the callbacks for a thread are taken in the order
in which they were scheduled (`LockedWorkers.served_under_lock`). As long as no fiber that a
scan has passed over stops executing before the scan is over, the critical sections are
atomic: the states that can be reached are those of threads whose scan is a single step
(`LockedWorkers.reachable_iff`). Otherwise they are not
(`LockedWorkers.overtaking_not_atomic`).
-/

namespace WbServer

variable {κ : Type}

/-- A thread that executes `run`, or another one. -/
inductive Actor where
  | worker (w : ThreadId)
  | other (n : ℕ)
  deriving DecidableEq

/-- Where a thread is while it holds `m_mutex`. -/
inductive Critical (κ : Type) where
  /-- In the loop of the scan, with `it` at the entry of this index. -/
  | scan (n : ℕ)
  /-- In front of what the action does with `m_fibers`. -/
  | access (a : Action κ)
  /-- In front of the release of the lock. -/
  | release

namespace Action

/-- The thread takes the lock for the action. -/
def Locks : Action κ → Prop
  | .scan _ => True
  | .call _ (.scheduler _ _) => True
  | .requeue _ => True
  | .schedule (.scheduler _ _) => True
  | _ => False

instance : (a : Action κ) → Decidable a.Locks
  | .scan _ | .call _ (.scheduler _ _) | .requeue _ | .schedule (.scheduler _ _) =>
      inferInstanceAs (Decidable True)
  | .run _ | .dispatch _ | .count _ | .swapIn _ | .call _ (.newFiber _) | .leave _ _
  | .swapOut _ | .uncount _ | .settle _ | .schedule (.newFiber _) | .setStoping _
  | .setAutoStop _ => inferInstanceAs (Decidable False)

/-- The thread may be the one that acts. -/
def By (a : Action κ) : Actor → Prop
  | .worker w => a.worker? = some w
  | .other _ => a.worker? = none

instance (a : Action κ) : (u : Actor) → Decidable (a.By u)
  | .worker w => inferInstanceAs (Decidable (a.worker? = some w))
  | .other _ => inferInstanceAs (Decidable (a.worker? = none))

/-- The critical section of the action. -/
def critical : Action κ → Critical κ
  | .scan _ => .scan 0
  | a => .access a

end Action

/-- The scheduler and its threads, with `m_mutex`. -/
structure LockedWorkers (κ : Type) extends TicketWorkers κ where
  mMutex : Option Actor
  critical : Actor → Option (Critical κ)

namespace LockedWorkers

/-- The steps: an action without the lock, and those of a critical section. -/
inductive Action (κ : Type) where
  | act (u : Actor) (a : WbServer.Action κ)
  | lock (u : Actor) (a : WbServer.Action κ)
  | look (w : ThreadId)
  | access (u : Actor)
  | unlock (u : Actor)

/-- The thread moves within its critical section, enters or leaves it. -/
def setCritical (s : LockedWorkers κ) (u : Actor) (c : Option (Critical κ)) : LockedWorkers κ :=
  { s with critical := Function.update s.critical u c }

/-- A step of the threads and their tickets. -/
def lift (s : LockedWorkers κ) (a : WbServer.Action κ) : Option (LockedWorkers κ) :=
  (TicketWorkers.step a s.toTicketWorkers).map fun t => { s with toTicketWorkers := t }

/-- The loop of the scan at one entry: `++it`, or the entry is taken, if there is one. -/
def stepLook (w : ThreadId) (n : ℕ) (s : LockedWorkers κ) : LockedWorkers κ :=
  if (s.mFibers[n]?).any fun it => it.PassedOver s.heap w then
    s.setCritical (.worker w) (some (.scan (n + 1)))
  else
    { s.setCritical (.worker w) (some .release) with
      toTicketWorkers := s.toTicketWorkers.takeAt w n }

/-- The step function, without the test for a failed assertion. -/
def act : Action κ → LockedWorkers κ → Option (LockedWorkers κ)
  | .act u a, s =>
      if ¬ a.Locks ∧ a.By u ∧ (s.critical u).isNone then s.lift a else none
  | .lock u a, s =>
      if a.Locks ∧ a.By u ∧ (s.critical u).isNone ∧ s.mMutex = none ∧
          (Workers.act a s.toWorkers).isSome then
        some { s.setCritical u (some a.critical) with mMutex := some u }
      else none
  | .look w, s =>
      match s.critical (.worker w) with
      | some (.scan n) => some (s.stepLook w n)
      | _ => none
  | .access u, s =>
      match s.critical u with
      | some (.access a) => (s.lift a).map fun t => t.setCritical u (some .release)
      | _ => none
  | .unlock u, s =>
      match s.critical u with
      | some .release => some { s.setCritical u none with mMutex := none }
      | _ => none

/-- A step of the scheduler and its threads. -/
def step (a : Action κ) (s : LockedWorkers κ) : Option (LockedWorkers κ) :=
  if s.failed.isSome then none else s.act a

/-- Before any thread has called `run`. -/
structure Initial (s : LockedWorkers κ) : Prop where
  workers : TicketWorkers.Initial s.toTicketWorkers
  mutex : s.mMutex = none
  critical : ∀ u, s.critical u = none

/-- The transition system of a scheduler and its threads, with `m_mutex`. -/
def system (κ : Type) : Transition.System (LockedWorkers κ) (Action κ) where
  init := Initial
  step := step

/-! ### The steps of the threads -/

section Threads

variable {s t : Workers κ} {a : WbServer.Action κ} {w : ThreadId}

/-- A step without the lock leaves the queue alone. -/
theorem mFibers_of_not_locks (hact : Workers.act a s = some t) (ha : ¬ a.Locks) :
  t.mFibers = s.mFibers
  := by
  by_cases hquiet : TicketWorkers.Quiet a
  · exact (hquiet.still hact).queue
  · cases a with
    | scan w => exact absurd trivial ha
    | requeue w => exact absurd trivial ha
    | dispatch w => exact (TicketWorkers.stepDispatch_taken hact).1
    | call w c =>
        obtain ⟨-, rfl⟩ := Workers.stepCall_cases hact
        cases c with
        | scheduler fc thread => exact absurd trivial ha
        | newFiber cb => rfl
    | schedule c =>
        obtain rfl := Option.some.inj hact
        cases c with
        | scheduler fc thread => exact absurd trivial ha
        | newFiber cb => rfl
    | _ => exact absurd trivial hquiet

end Threads

/-- A step of the tickets is one of the threads, at which no assertion has failed. -/
theorem act_of_step {a : WbServer.Action κ} {s t : TicketWorkers κ}
    (h : TicketWorkers.step a s = some t) :
  s.failed = none ∧ Workers.act a s.toWorkers = some t.toWorkers
  := by
  obtain ⟨u, hu, rfl⟩ := Option.map_eq_some_iff.mp h
  unfold Workers.step at hu
  split at hu
  case isTrue => cases hu
  case isFalse hfailed => exact ⟨by simpa using hfailed, hu⟩

/-! ### What a step can do -/

section Cases

variable {s s' : LockedWorkers κ}

@[simp]
theorem setCritical_self (s : LockedWorkers κ) (u : Actor) (c : Option (Critical κ)) :
  (s.setCritical u c).critical u = c
  := by
  simp [setCritical]

@[simp]
theorem setCritical_mMutex (s : LockedWorkers κ) (u : Actor) (c : Option (Critical κ)) :
  (s.setCritical u c).mMutex = s.mMutex
  := rfl

theorem setCritical_of_ne (s : LockedWorkers κ) {u v : Actor} (h : v ≠ u)
    (c : Option (Critical κ)) :
  (s.setCritical u c).critical v = s.critical v
  := Function.update_of_ne h _ _

/-- A step outside the critical sections. -/
theorem step_act {u : Actor} {a : WbServer.Action κ} (h : step (.act u a) s = some s') :
  ¬ a.Locks ∧ a.By u ∧ s.critical u = none ∧
    ∃ t, TicketWorkers.step a s.toTicketWorkers = some t ∧ s' = { s with toTicketWorkers := t }
  := by
  simp only [step, act] at h
  split at h
  · cases h
  · split at h
    case isTrue hif =>
      obtain ⟨hlocks, hby, hcritical⟩ := hif
      obtain ⟨t, ht, rfl⟩ := Option.map_eq_some_iff.mp h
      exact ⟨hlocks, hby, Option.isNone_iff_eq_none.mp hcritical, t, ht, rfl⟩
    case isFalse => cases h

/-- A step that takes the lock. -/
theorem step_lock {u : Actor} {a : WbServer.Action κ} (h : step (.lock u a) s = some s') :
  a.Locks ∧ a.By u ∧ s.critical u = none ∧ s.mMutex = none ∧
    (Workers.act a s.toWorkers).isSome ∧
    s' = { s.setCritical u (some a.critical) with mMutex := some u }
  := by
  simp only [step, act] at h
  split at h
  · cases h
  · split at h
    case isTrue hif =>
      obtain ⟨hlocks, hby, hcritical, hmutex, hsome⟩ := hif
      exact ⟨hlocks, hby, Option.isNone_iff_eq_none.mp hcritical, hmutex, hsome,
        (Option.some.inj h).symm⟩
    case isFalse => cases h

/-- A step of the scan: an entry is passed over, or the scan has an end. -/
theorem step_look {w : ThreadId} (h : step (.look w) s = some s') :
  s.failed = none ∧ ∃ n, s.critical (.worker w) = some (.scan n) ∧
    ((∃ it, s.mFibers[n]? = some it ∧ it.PassedOver s.heap w ∧
        s' = s.setCritical (.worker w) (some (.scan (n + 1)))) ∨
      (∀ it, s.mFibers[n]? = some it → ¬ it.PassedOver s.heap w) ∧
        s' = { s.setCritical (.worker w) (some .release) with
          toTicketWorkers := s.toTicketWorkers.takeAt w n })
  := by
  simp only [step, act] at h
  split at h
  · cases h
  case isFalse hfailed =>
    split at h
    case h_1 n hn =>
      refine ⟨by simpa using hfailed, n, hn, ?_⟩
      obtain rfl := Option.some.inj h
      unfold stepLook
      split
      case isTrue hpassed =>
        obtain ⟨it, hit, hpassed⟩ := (Option.any_eq_true _ _).mp hpassed
        exact .inl ⟨it, hit, by simpa using hpassed, rfl⟩
      case isFalse hpassed =>
        refine .inr ⟨fun it hit hover => ?_, rfl⟩
        apply hpassed
        simpa [hit] using hover
    case h_2 => cases h

/-- A step that accesses the queue. -/
theorem step_access {u : Actor} (h : step (.access u) s = some s') :
  ∃ a t, s.critical u = some (.access a) ∧ TicketWorkers.step a s.toTicketWorkers = some t ∧
    s' = { s.setCritical u (some .release) with toTicketWorkers := t }
  := by
  simp only [step, act] at h
  split at h
  · cases h
  · split at h
    case h_1 a ha =>
      obtain ⟨r, hr, rfl⟩ := Option.map_eq_some_iff.mp h
      obtain ⟨t, ht, rfl⟩ := Option.map_eq_some_iff.mp hr
      exact ⟨a, t, ha, ht, rfl⟩
    case h_2 => cases h

/-- A step that releases the lock. -/
theorem step_unlock {u : Actor} (h : step (.unlock u) s = some s') :
  s.critical u = some .release ∧ s' = { s.setCritical u none with mMutex := none }
  := by
  simp only [step, act] at h
  split at h
  · cases h
  · split at h
    case h_1 hu => exact ⟨hu, (Option.some.inj h).symm⟩
    case h_2 => cases h

end Cases

/-! ### The invariant -/

/-- An entry that the scan of the thread may pass over, whatever the states of the fibers. -/
def Skippable (w : ThreadId) (it : FiberAndThread κ) : Prop :=
  (it.thread ≠ -1 ∧ it.thread ≠ w) ∨ ∃ f, it.task = .fiber f

theorem skippable_of_passedOver {heap : FiberId → Fiber κ} {w : ThreadId}
    {it : FiberAndThread κ} (h : it.PassedOver heap w) :
  Skippable w it
  := by
  obtain ⟨task, thread⟩ := it
  obtain hpinned | hexec := h
  · exact .inl hpinned
  · cases task with
    | fiber f => exact .inr ⟨f, rfl⟩
    | cb c => exact hexec.elim

/-- A thread holds the lock exactly while it is in a critical section, and the entries that its
scan has passed over are still at the head of the queue. -/
structure Inv (s : LockedWorkers κ) : Prop where
  tickets : s.toTicketWorkers.Inv
  mutex : ∀ u, s.mMutex = some u ↔ s.critical u ≠ none
  scan : ∀ u n, s.critical u = some (.scan n) → ∃ w, u = .worker w ∧
    (s.worker w).pc = .head ∧ n ≤ s.mFibers.length ∧ ∀ it ∈ s.mFibers.take n, Skippable w it
  access : ∀ u a, s.critical u = some (.access a) → a.By u

variable {s s' : LockedWorkers κ} {u v : Actor}

/-- Two critical sections are never entered at the same time. -/
theorem Inv.exclusive (h : s.Inv) (hu : s.critical u ≠ none) (hv : s.critical v ≠ none) :
  u = v
  := by
  have hmutex := (h.mutex u).mpr hu
  rw [(h.mutex v).mpr hv] at hmutex
  exact (Option.some.inj hmutex).symm

/-- No thread but the one that holds the lock is in a critical section. -/
theorem Inv.alone (h : s.Inv) (hu : s.critical u ≠ none) (hv : v ≠ u) :
  s.critical v = none
  := by
  by_contra hne
  exact hv (h.exclusive hne hu)

/-- A state in which at most the thread `u` is in a critical section. -/
theorem inv_of_alone (hothers : ∀ v ≠ u, s.critical v = none)
    (hmutex : s.mMutex = (s.critical u).map fun _ => u) (htickets : s.toTicketWorkers.Inv)
    (hscan : ∀ n, s.critical u = some (.scan n) → ∃ w, u = .worker w ∧
      (s.worker w).pc = .head ∧ n ≤ s.mFibers.length ∧ ∀ it ∈ s.mFibers.take n, Skippable w it)
    (haccess : ∀ a, s.critical u = some (.access a) → a.By u) :
  s.Inv
  := by
  constructor
  case tickets => apply htickets
  case mutex =>
    intro v
    rw [hmutex]
    by_cases hv : v = u
    · subst hv
      cases s.critical v <;> simp
    · rw [hothers v hv]
      cases s.critical u <;> simp [Ne.symm hv]
  case scan =>
    intro v n hn
    by_cases hv : v = u
    · subst hv
      exact hscan n hn
    · rw [hothers v hv] at hn
      cases hn
  case access =>
    intro v a ha
    by_cases hv : v = u
    · subst hv
      exact haccess a ha
    · rw [hothers v hv] at ha
      cases ha

/-- The step of a thread in its critical section, behind which it is about to release the lock
or has released it. -/
theorem Inv.release (h : s.Inv) (hu : s.critical u ≠ none)
    (hothers : ∀ v ≠ u, s'.critical v = s.critical v)
    (hmutex : s'.mMutex = (s'.critical u).map fun _ => u) (htickets : s'.toTicketWorkers.Inv)
    (hself : s'.critical u = some .release ∨ s'.critical u = none) :
  s'.Inv
  := by
  apply inv_of_alone (u := u)
  · intro v hv
    rw [hothers v hv, h.alone hu hv]
  · exact hmutex
  · exact htickets
  · intro n hn
    obtain hself | hself := hself <;> cases hself.symm.trans hn
  · intro a ha
    obtain hself | hself := hself <;> cases hself.symm.trans ha

/-- The thread of an action is the one that acts. -/
theorem worker?_ne {a : WbServer.Action κ} {w : ThreadId} (h : a.By u) (hw : u ≠ .worker w) :
  a.worker? ≠ some w
  := by
  cases u with
  | worker w' =>
      rw [show a.worker? = some w' from h]
      rintro heq
      exact hw (congrArg _ (Option.some.inj heq))
  | other n =>
      rw [show a.worker? = none from h]
      exact fun heq => by cases heq

/-- A step without the lock leaves the critical sections alone. -/
theorem Inv.act (h : s.Inv) {a : WbServer.Action κ} {t : TicketWorkers κ} (hlocks : ¬ a.Locks)
    (hby : a.By u) (hu : s.critical u = none)
    (hstep : TicketWorkers.step a s.toTicketWorkers = some t) :
  Inv { s with toTicketWorkers := t }
  := by
  obtain ⟨-, hact⟩ := act_of_step hstep
  have hqueue : t.mFibers = s.mFibers := mFibers_of_not_locks hact hlocks
  constructor
  case tickets => exact h.tickets.step hstep
  case mutex => exact h.mutex
  case scan =>
    intro v n hn
    obtain ⟨w, rfl, hpc, hle, hskip⟩ := h.scan v n hn
    have hne : u ≠ .worker w := by
      rintro rfl
      cases hu.symm.trans hn
    have hworker : t.worker w = s.worker w := Workers.act_worker_of_ne hact (worker?_ne hby hne)
    refine ⟨w, rfl, ?_, ?_, ?_⟩
    · rw [← hpc]
      exact congrArg Worker.pc hworker
    · rwa [hqueue]
    · rwa [hqueue]
  case access => exact h.access

/-- The end of the queue: nothing is taken. -/
theorem takeAt_of_none {t : TicketWorkers κ} (h : t.Inv) {w : ThreadId} {n : ℕ}
    (hn : t.mFibers[n]? = none) :
  t.takeAt w n = { toWorkers := t.toWorkers.setPc w (.dispatch none), tickets := t.tickets }
  := by
  have hlength : t.mFibers.length ≤ n := List.getElem?_eq_none_iff.mp hn
  have hwaiting : t.tickets.waiting[n]? = none := by
    rw [List.getElem?_eq_none_iff, h.queue.length]
    exact hlength
  simp [TicketWorkers.takeAt, Tickets.take, hn, hwaiting, List.eraseIdx_of_length_le hlength]

/-- The loop of the scan ends at an entry that is not passed over, or at the end. -/
theorem Inv.takeAt (h : s.Inv) {w : ThreadId} {n : ℕ}
    (hn : s.critical (.worker w) = some (.scan n))
    (hat : ∀ it, s.mFibers[n]? = some it → ¬ it.PassedOver s.heap w) :
  (s.toTicketWorkers.takeAt w n).Inv
  := by
  obtain ⟨w', heq, hpc, -, hskip⟩ := h.scan _ n hn
  obtain rfl := Actor.worker.inj heq
  have htaken : (s.worker w).pc.taken = none := by
    rw [hpc]
    rfl
  cases hit : s.mFibers[n]? with
  | none =>
      rw [takeAt_of_none h.tickets hit]
      exact (TicketWorkers.still_setPc rfl (fun _ => rfl) htaken rfl).inv h.tickets
  | some it =>
      have hnot := hat it hit
      have hallowed : it.thread = -1 ∨ it.thread = w := by
        by_contra! hpinned
        exact hnot (.inl hpinned)
      apply h.tickets.takeAt htaken hit hallowed
      rintro x hx ⟨hthread, c, hc⟩
      obtain ⟨hfree, hother⟩ | ⟨f, hf⟩ := hskip x hx
      · rw [hthread] at hfree hother
        exact hallowed.elim hfree hother
      · cases hc.symm.trans hf

/-- Every step keeps the invariant. -/
theorem Inv.step (h : s.Inv) {a : Action κ} (hstep : LockedWorkers.step a s = some s') :
  s'.Inv
  := by
  cases a with
  | act u a =>
      obtain ⟨hlocks, hby, hu, t, ht, rfl⟩ := step_act hstep
      exact h.act hlocks hby hu ht
  | lock u a =>
      obtain ⟨hlocks, hby, -, hmutex, hsome, rfl⟩ := step_lock hstep
      have hnone (v : Actor) : s.critical v = none := by
        by_contra hv
        cases hmutex.symm.trans ((h.mutex v).mpr hv)
      apply inv_of_alone (u := u)
      · intro v hv
        rw [← hnone v]
        exact setCritical_of_ne s hv _
      · simp
      · exact h.tickets
      · intro n hn
        replace hn : a.critical = .scan n := by simpa using hn
        cases a with
        | scan w =>
            cases u with
            | other n => cases hby
            | worker w' =>
                obtain rfl : w = w' := Option.some.inj hby
                cases hn
                obtain ⟨t, ht⟩ := Option.isSome_iff_exists.mp hsome
                exact ⟨w, rfl, (Workers.stepScan_cases ht).1, Nat.zero_le _, by simp⟩
        | _ => cases hn
      · intro b hb
        replace hb : a.critical = .access b := by simpa using hb
        cases a <;> cases hb <;> exact hby
  | look w =>
      obtain ⟨-, n, hn, ⟨it, hit, hover, rfl⟩ | ⟨hat, rfl⟩⟩ := step_look hstep
      · obtain ⟨w', heq, hpc, hle, hskip⟩ := h.scan _ n hn
        obtain rfl := Actor.worker.inj heq
        have hin : s.critical (.worker w) ≠ none := by simp [hn]
        apply inv_of_alone (u := .worker w)
        · intro v hv
          rw [setCritical_of_ne s hv, h.alone hin hv]
        · rw [setCritical_self]
          exact (h.mutex _).mpr hin
        · exact h.tickets
        · intro m hm
          obtain rfl : n + 1 = m := by simpa using hm
          obtain ⟨hlt, -⟩ := List.getElem?_eq_some_iff.mp hit
          refine ⟨w, rfl, hpc, hlt, ?_⟩
          intro x hx
          change x ∈ s.mFibers.take (n + 1) at hx
          rw [List.take_add_one, hit] at hx
          obtain hx | hx := List.mem_append.mp hx
          · exact hskip x hx
          · obtain rfl : x = it := by simpa using hx
            exact skippable_of_passedOver hover
        · intro b hb
          simp at hb
      · have hin : s.critical (.worker w) ≠ none := by simp [hn]
        apply h.release hin
        · exact fun v hv => setCritical_of_ne s hv _
        · simpa using (h.mutex _).mpr hin
        · exact h.takeAt hn hat
        · simp
  | access u =>
      obtain ⟨a, t, ha, ht, rfl⟩ := step_access hstep
      have hin : s.critical u ≠ none := by simp [ha]
      apply h.release hin
      · exact fun v hv => setCritical_of_ne s hv _
      · simpa using (h.mutex _).mpr hin
      · exact h.tickets.step ht
      · simp
  | unlock u =>
      obtain ⟨hu, rfl⟩ := step_unlock hstep
      have hin : s.critical u ≠ none := by simp [hu]
      apply h.release hin
      · exact fun v hv => setCritical_of_ne s hv _
      · simp
      · exact h.tickets
      · simp

/-- At first the lock is free. -/
theorem Initial.inv (h : s.Initial) :
  s.Inv
  := by
  constructor
  case tickets => exact h.workers.inv
  case mutex => simp [h.mutex, h.critical]
  case scan => simp [h.critical]
  case access => simp [h.critical]

/-- In every reachable state. -/
theorem reaches_inv {ok : Action κ → LockedWorkers κ → Prop} (h : (system κ).Reaches ok s) :
  s.Inv
  := by
  apply h.invariant
  · exact fun _ hs => hs.inv
  · exact fun _ _ _ hs _ hstep => hs.step hstep

/-! ### Entries are served once -/

/-- Whatever the states of the fibers do while a scan is in progress: at most one thread is in a
critical section; the queue holds the entries that wait, in the order in which they came; every
entry is in exactly one place, which is the queue, the hands of one thread, or the list of those
that have been dispatched, where it stands once; only threads that it allows take it; and the
callbacks that were scheduled for one thread are taken in the order in which they came. -/
theorem served_under_lock (h : (system κ).Reachable s) :
  (∀ u v, s.critical u ≠ none → s.critical v ≠ none → u = v) ∧
    s.tickets.Queues s.mFibers ∧ s.tickets.waiting.Pairwise (· < ·) ∧
    (∀ n < s.tickets.entries.length, ∃! p, s.tickets.At n p) ∧
    (∀ w n it, s.tickets.At n (.hands w) ∨ s.tickets.At n (.served w) →
      s.tickets.entries[n]? = some it → it.thread = -1 ∨ it.thread = w) ∧
    ∀ thread, s.tickets.Fifo (TicketWorkers.CallbackFor thread)
  := by
  have hinv := reaches_inv h
  refine ⟨fun _ _ => hinv.exclusive, hinv.tickets.queue, hinv.tickets.exact.sorted,
    hinv.tickets.exact.place, fun w n it hn hit => ?_, hinv.tickets.fifo⟩
  apply hinv.tickets.allowed w n hn it hit

/-! ### Critical sections are atomic -/

/-- The fibers that a scan in progress has passed over are still executing, or pinned to
another thread. -/
def Passed (s : LockedWorkers κ) : Prop :=
  ∀ w n, s.critical (.worker w) = some (.scan n) →
    ∀ it ∈ s.mFibers.take n, it.PassedOver s.heap w

/-- The step does not end the execution of a fiber that a scan in progress has passed over. -/
def KeepsPassed (a : Action κ) (s : LockedWorkers κ) : Prop :=
  ∀ s', LockedWorkers.step a s = some s' → ∀ w n, s.critical (.worker w) = some (.scan n) →
    ∀ it ∈ s.mFibers.take n, it.PassedOver s.heap w → it.PassedOver s'.heap w

/-- No thread is in the loop of the scan. -/
theorem passed_of_not_scan (h : ∀ w n, s.critical (.worker w) ≠ some (.scan n)) :
  s.Passed
  := fun w n hn => absurd hn (h w n)

/-- After the step of a thread in its critical section, no thread is in the loop of the scan. -/
theorem Inv.not_scan (h : s.Inv) (hu : s.critical u ≠ none)
    (hothers : ∀ v ≠ u, s'.critical v = s.critical v)
    (hself : ∀ n, s'.critical u ≠ some (.scan n)) :
  s'.Passed
  := by
  apply passed_of_not_scan
  intro w n hn
  by_cases hw : .worker w = u
  · exact hself n (hw ▸ hn)
  · rw [hothers _ hw, h.alone hu hw] at hn
    cases hn

/-- A step that meets the condition keeps what the scans have passed over. -/
theorem Inv.passed_step (h : s.Inv) (hpassed : s.Passed) {a : Action κ}
    (hok : KeepsPassed a s) (hstep : LockedWorkers.step a s = some s') :
  s'.Passed
  := by
  have hkeeps := hok s' hstep
  cases a with
  | act u a =>
      obtain ⟨hlocks, -, -, t, ht, rfl⟩ := step_act hstep
      intro w n hn it hit
      change it ∈ t.mFibers.take n at hit
      rw [mFibers_of_not_locks (act_of_step ht).2 hlocks] at hit
      exact hkeeps w n hn it hit (hpassed w n hn it hit)
  | lock u a =>
      obtain ⟨-, -, -, hmutex, -, rfl⟩ := step_lock hstep
      intro w n hn it hit
      by_cases hw : .worker w = u
      · subst hw
        replace hn : a.critical = .scan n := by simpa using hn
        cases a with
        | scan w' =>
            cases hn
            simp at hit
        | _ => cases hn
      · have hn' : s.critical (.worker w) = some (.scan n) := by
          rw [← hn]
          exact (setCritical_of_ne s hw _).symm
        have hheld := (h.mutex (.worker w)).mpr (by simp [hn'])
        cases hmutex.symm.trans hheld
  | look w =>
      obtain ⟨-, n, hn, ⟨it, hit, hover, rfl⟩ | ⟨-, rfl⟩⟩ := step_look hstep
      · intro w' m hm x hx
        by_cases hw : w' = w
        · subst hw
          obtain rfl : n + 1 = m := by simpa using hm
          change x ∈ s.mFibers.take (n + 1) at hx
          rw [List.take_add_one, hit] at hx
          obtain hx | hx := List.mem_append.mp hx
          · exact hpassed w' n hn x hx
          · obtain rfl : x = it := by simpa using hx
            exact hover
        · have hne : Actor.worker w' ≠ .worker w := fun heq => hw (Actor.worker.inj heq)
          rw [setCritical_of_ne s hne, h.alone (by simp [hn]) hne] at hm
          cases hm
      · exact h.not_scan (by simp [hn]) (fun v hv => setCritical_of_ne s hv _) (by simp)
  | access u =>
      obtain ⟨a, t, ha, -, rfl⟩ := step_access hstep
      exact h.not_scan (by simp [ha]) (fun v hv => setCritical_of_ne s hv _) (by simp)
  | unlock u =>
      obtain ⟨hu, rfl⟩ := step_unlock hstep
      exact h.not_scan (by simp [hu]) (fun v hv => setCritical_of_ne s hv _) (by simp)

/-- The scan takes the first entry that it does not pass over. -/
theorem scan_eq {heap : FiberId → Fiber κ} {tid : ℤ} {fs : List (FiberAndThread κ)} {n : ℕ}
    (hpassed : ∀ it ∈ fs.take n, it.PassedOver heap tid)
    (hat : ∀ it, fs[n]? = some it → ¬ it.PassedOver heap tid) :
  scan heap tid fs = fs[n]?.map fun it => (it, fs.eraseIdx n)
  := by
  induction fs generalizing n with
  | nil => simp [scan]
  | cons it fs ih =>
      cases n with
      | zero => simp [scan_cons (hat it rfl)]
      | succ n =>
          have hit : it.PassedOver heap tid := hpassed it (by simp)
          have hrest := ih (n := n) (fun x hx => hpassed x (by simp [hx])) (by simpa using hat)
          simp only [scan, if_pos hit, hrest, List.getElem?_cons_succ, List.eraseIdx_cons_succ,
            Option.map_map]
          rfl

/-- The first entry that is not passed over. -/
theorem findIdx_eq {heap : FiberId → Fiber κ} {tid : ℤ} {fs : List (FiberAndThread κ)} {n : ℕ}
    (hn : n ≤ fs.length) (hpassed : ∀ it ∈ fs.take n, it.PassedOver heap tid)
    (hat : ∀ it, fs[n]? = some it → ¬ it.PassedOver heap tid) :
  (fs.findIdx fun it => ¬ it.PassedOver heap tid) = n
  := by
  have hhead : ((fs.take n).findIdx fun it => ¬ it.PassedOver heap tid) = n := by
    rw [List.findIdx_eq_length_of_false fun it hit => by simp [hpassed it hit],
      List.length_take_of_le hn]
  have hrest : ((fs.drop n).findIdx fun it => ¬ it.PassedOver heap tid) = 0 := by
    cases hdrop : fs.drop n with
    | nil => rfl
    | cons it rest =>
        have hit : fs[n]? = some it := by
          rw [← List.head?_drop, hdrop]
          rfl
        simp [List.findIdx_cons, hat it hit]
  conv_lhs => rw [← List.take_append_drop n fs]
  rw [List.findIdx_append, hhead, hrest, List.length_take_of_le hn, if_neg (lt_irrefl n), zero_add]

/-- The scan of `Workers`, at the index where the loop ends. -/
theorem step_scan {t : TicketWorkers κ} {w : ThreadId} {n : ℕ}
    (hfailed : t.failed = none) (hpc : (t.worker w).pc = .head) (hn : n ≤ t.mFibers.length)
    (hpassed : ∀ it ∈ t.mFibers.take n, it.PassedOver t.heap w)
    (hat : ∀ it, t.mFibers[n]? = some it → ¬ it.PassedOver t.heap w) :
  TicketWorkers.step (.scan w) t = some (t.takeAt w n)
  := by
  have hscan := scan_eq hpassed hat
  have hact : Workers.step (.scan w) t.toWorkers = some (t.takeAt w n).toWorkers := by
    rw [Workers.step, if_neg (by simp [hfailed])]
    simp only [Workers.act, Workers.stepScan, hpc, hscan]
    cases hit : t.mFibers[n]? with
    | none =>
        have hlength : t.mFibers.length ≤ n := List.getElem?_eq_none_iff.mp hit
        simp [TicketWorkers.takeAt, hit, List.eraseIdx_of_length_le hlength]
    | some it => simp [TicketWorkers.takeAt, hit]
  have hindex := findIdx_eq hn hpassed hat
  rw [TicketWorkers.step, hact, Option.map_some]
  simp only [Action.tickets, hindex]
  rfl

/-- A step within or outside of a critical section is a step of the threads, or none. -/
theorem Inv.refines (h : s.Inv) (hpassed : s.Passed) {a : Action κ}
    (hstep : LockedWorkers.step a s = some s') :
  s'.toTicketWorkers = s.toTicketWorkers ∨
    ∃ b, TicketWorkers.step b s.toTicketWorkers = some s'.toTicketWorkers
  := by
  cases a with
  | act u a =>
      obtain ⟨-, -, -, t, ht, rfl⟩ := step_act hstep
      exact .inr ⟨a, ht⟩
  | lock u a =>
      obtain ⟨-, -, -, -, -, rfl⟩ := step_lock hstep
      exact .inl rfl
  | look w =>
      obtain ⟨hfailed, n, hn, ⟨it, -, -, rfl⟩ | ⟨hat, rfl⟩⟩ := step_look hstep
      · exact .inl rfl
      · obtain ⟨w', heq, hpc, hle, -⟩ := h.scan _ n hn
        obtain rfl := Actor.worker.inj heq
        exact .inr ⟨.scan w, step_scan hfailed hpc hle (hpassed w n hn) hat⟩
  | access u =>
      obtain ⟨a, t, -, ht, rfl⟩ := step_access hstep
      exact .inr ⟨a, ht⟩
  | unlock u =>
      obtain ⟨-, rfl⟩ := step_unlock hstep
      exact .inl rfl

/-- Under the condition every state is one of the atomic model. -/
theorem reaches_atomic (h : (system κ).Reaches KeepsPassed s) :
  s.Passed ∧ (TicketWorkers.system κ).Reachable s.toTicketWorkers
  := by
  induction h with
  | init h =>
      constructor
      · apply passed_of_not_scan
        simp [h.critical]
      · exact .init h.workers
  | step hs hok hstep ih =>
      obtain ⟨hpassed, hreach⟩ := ih
      have hinv := reaches_inv hs
      use hinv.passed_step hpassed hok hstep
      obtain heq | ⟨b, hb⟩ := hinv.refines hpassed hstep
      · rw [heq]
        exact hreach
      · exact hreach.step trivial hb

/-! ### Every atomic run -/

/-- The state in which no thread is in a critical section. -/
def quiet (t : TicketWorkers κ) : LockedWorkers κ where
  toTicketWorkers := t
  mMutex := none
  critical _ := none

/-- The state in which only the thread `u` is in a critical section. -/
def inside (t : TicketWorkers κ) (u : Actor) (c : Critical κ) : LockedWorkers κ where
  toTicketWorkers := t
  mMutex := some u
  critical := Function.update (fun _ => none) u (some c)

/-- Every action has a thread that may be the one that acts. -/
theorem exists_by (a : WbServer.Action κ) :
  ∃ u, a.By u
  := by
  cases ha : a.worker? with
  | none => exact ⟨.other 0, ha⟩
  | some w => exact ⟨.worker w, ha⟩

section Runs

variable {t t' : TicketWorkers κ} {a : WbServer.Action κ}

/-- A step that changes no fiber meets the condition. -/
theorem keepsPassed_of_heap {b : Action κ}
    (h : ∀ s', LockedWorkers.step b s = some s' → s'.heap = s.heap) :
  KeepsPassed b s
  := by
  intro s' hstep w n hn it hit hover
  rwa [h s' hstep]

/-- So does every step while nobody scans. -/
theorem keepsPassed_of_not_scan {b : Action κ}
    (h : ∀ w n, s.critical (.worker w) ≠ some (.scan n)) :
  KeepsPassed b s
  := fun _ _ w n hn => absurd hn (h w n)

theorem not_scan_quiet (t : TicketWorkers κ) (w : ThreadId) (n : ℕ) :
  (quiet t).critical (.worker w) ≠ some (.scan n)
  := by
  simp [quiet]

theorem not_scan_inside (t : TicketWorkers κ) (u : Actor) {c : Critical κ}
    (hc : ∀ n, c ≠ .scan n) (w : ThreadId) (n : ℕ) :
  (inside t u c).critical (.worker w) ≠ some (.scan n)
  := by
  by_cases hw : .worker w = u
  · simpa [inside, hw] using hc n
  · simp [inside, hw]

/-- An atomic step begins by taking the lock. -/
theorem reaches_lock (h : (system κ).Reaches KeepsPassed (quiet t)) (hlocks : a.Locks)
    (hby : a.By u) (hstep : TicketWorkers.step a t = some t') :
  (system κ).Reaches KeepsPassed (inside t u a.critical)
  := by
  obtain ⟨hfailed, hact⟩ := act_of_step hstep
  apply h.step (l := .lock u a) (keepsPassed_of_not_scan (not_scan_quiet t))
  have hsome : (Workers.act a t.toWorkers).isSome := by simp [hact]
  simp [system, LockedWorkers.step, LockedWorkers.act, quiet, inside, setCritical, hfailed, hlocks,
    hby, hsome]

/-- It ends by releasing it. -/
theorem reaches_unlock (h : (system κ).Reaches KeepsPassed (inside t u .release))
    (hfailed : t.failed = none) :
  (system κ).Reaches KeepsPassed (quiet t)
  := by
  apply h.step (l := .unlock u) (keepsPassed_of_not_scan (not_scan_inside t u (by simp)))
  simp [system, LockedWorkers.step, LockedWorkers.act, quiet, inside, setCritical, hfailed]

/-- The steps under the lock fail no assertion. -/
theorem failed_of_locks {x y : Workers κ} (hact : Workers.act a x = some y) (ha : a.Locks) :
  y.failed = x.failed
  := by
  cases a with
  | scan w =>
      obtain ⟨-, ⟨-, rfl⟩ | ⟨ft, rest, -, rfl⟩⟩ := Workers.stepScan_cases hact <;> rfl
  | call w c =>
      obtain ⟨-, rfl⟩ := Workers.stepCall_cases hact
      rfl
  | requeue w =>
      obtain ⟨b, f, u, -, rfl, ⟨-, rfl⟩ | ⟨-, rfl⟩⟩ := Workers.stepRequeue_cases hact <;> rfl
  | schedule c =>
      obtain rfl := Option.some.inj hact
      rfl
  | _ => cases ha

/-- The loop of the scan leaves the fibers alone. -/
theorem keepsPassed_look (w : ThreadId) (s : LockedWorkers κ) :
  KeepsPassed (.look w) s
  := by
  apply keepsPassed_of_heap
  intro s' hstep
  obtain ⟨-, n, -, ⟨it, -, -, rfl⟩ | ⟨-, rfl⟩⟩ := step_look hstep <;> rfl

theorem step_look_inside {w : ThreadId} (hfailed : t.failed = none) (n : ℕ) :
  LockedWorkers.step (.look w) (inside t (.worker w) (.scan n)) =
    some ((inside t (.worker w) (.scan n)).stepLook w n)
  := by
  simp [LockedWorkers.step, LockedWorkers.act, inside, hfailed]

theorem stepLook_of_passedOver {w : ThreadId} {n : ℕ} {it : FiberAndThread κ}
    (hit : s.mFibers[n]? = some it) (hover : it.PassedOver s.heap w) :
  s.stepLook w n = s.setCritical (.worker w) (some (.scan (n + 1)))
  := if_pos (by simpa [hit] using hover)

theorem stepLook_of_not_passedOver {w : ThreadId} {n : ℕ}
    (hat : ∀ it, s.mFibers[n]? = some it → ¬ it.PassedOver s.heap w) :
  s.stepLook w n = { s.setCritical (.worker w) (some .release) with
    toTicketWorkers := s.toTicketWorkers.takeAt w n }
  := by
  apply if_neg
  intro hany
  obtain ⟨it, hit, hover⟩ := (Option.any_eq_true _ _).mp hany
  exact hat it hit (by simpa using hover)

/-- The loop of the scan passes over some entries. -/
theorem reaches_passed {w : ThreadId} (hfailed : t.failed = none)
    (h : (system κ).Reaches KeepsPassed (inside t (.worker w) (.scan 0))) {n : ℕ}
    (hn : n ≤ t.mFibers.length) (hpassed : ∀ it ∈ t.mFibers.take n, it.PassedOver t.heap w) :
  (system κ).Reaches KeepsPassed (inside t (.worker w) (.scan n))
  := by
  induction n with
  | zero => exact h
  | succ n ih =>
      have hlt : n < t.mFibers.length := hn
      have hit : t.mFibers[n]? = some t.mFibers[n] := List.getElem?_eq_getElem hlt
      have htake : t.mFibers.take (n + 1) = t.mFibers.take n ++ [t.mFibers[n]] := by
        rw [List.take_add_one, hit]
        rfl
      rw [htake] at hpassed
      have hrest := ih (Nat.le_of_lt hlt) fun it hit => hpassed it (List.mem_append_left _ hit)
      have hover : t.mFibers[n].PassedOver t.heap w :=
        hpassed _ (List.mem_append_right _ (List.mem_singleton_self _))
      apply hrest.step (keepsPassed_look w _)
      refine (step_look_inside hfailed n).trans ?_
      rw [stepLook_of_passedOver hit hover]
      simp [inside, setCritical]

/-- The loop of the scan ends as the scan of the atomic system. -/
theorem reaches_scanned {w : ThreadId} (hstep : TicketWorkers.step (.scan w) t = some t')
    (h : (system κ).Reaches KeepsPassed (inside t (.worker w) (.scan 0))) :
  (system κ).Reaches KeepsPassed (inside t' (.worker w) .release)
  := by
  obtain ⟨hfailed, hact⟩ := act_of_step hstep
  have hpc := (Workers.stepScan_cases hact).1
  obtain ⟨n, hn⟩ : ∃ n, (t.mFibers.findIdx fun it => ¬ it.PassedOver t.heap w) = n := ⟨_, rfl⟩
  have hle : n ≤ t.mFibers.length := by
    rw [← hn]
    exact List.findIdx_le_length
  have hpassed : ∀ it ∈ t.mFibers.take n, it.PassedOver t.heap w := by
    intro it hit
    obtain ⟨j, hj, rfl⟩ := List.mem_take_iff_getElem.mp hit
    have hlt : j < t.mFibers.findIdx fun it => ¬ it.PassedOver t.heap w := by omega
    simpa using List.not_of_lt_findIdx hlt
  have hat : ∀ it, t.mFibers[n]? = some it → ¬ it.PassedOver t.heap w := by
    intro it hit
    obtain ⟨hlt, rfl⟩ := List.getElem?_eq_some_iff.mp hit
    subst hn
    simpa using List.findIdx_getElem (w := hlt)
  have hloop := reaches_passed hfailed h hle hpassed
  apply hloop.step (keepsPassed_look w _)
  obtain rfl : t.takeAt w n = t' :=
    Option.some.inj ((step_scan hfailed hpc hle hpassed hat).symm.trans hstep)
  refine (step_look_inside hfailed n).trans ?_
  rw [stepLook_of_not_passedOver hat]
  simp [inside, setCritical]

/-- In between, the queue is accessed. -/
theorem reaches_accessed (hcritical : a.critical = .access a)
    (hstep : TicketWorkers.step a t = some t')
    (h : (system κ).Reaches KeepsPassed (inside t u a.critical)) :
  (system κ).Reaches KeepsPassed (inside t' u .release)
  := by
  obtain ⟨hfailed, -⟩ := act_of_step hstep
  rw [hcritical] at h
  apply h.step (l := .access u) (keepsPassed_of_not_scan (not_scan_inside t u (by simp)))
  simp [system, LockedWorkers.step, LockedWorkers.act, lift, inside, setCritical, hfailed, hstep]

/-- Every run of the atomic system is one of critical sections, one after the other. -/
theorem reaches_quiet (h : (TicketWorkers.system κ).Reachable t) :
  (system κ).Reaches KeepsPassed (quiet t)
  := by
  induction h with
  | init h => exact .init ⟨h, rfl, fun _ => rfl⟩
  | @step t t' a _ _ hstep ih =>
      obtain ⟨u, hby⟩ := exists_by a
      obtain ⟨hfailed, hact⟩ := act_of_step hstep
      by_cases hlocks : a.Locks
      · have hlock := reaches_lock ih hlocks hby hstep
        have hfailed' : t'.failed = none := (failed_of_locks hact hlocks).trans hfailed
        apply reaches_unlock (u := u) _ hfailed'
        cases a with
        | scan w =>
            cases u with
            | other n => cases hby
            | worker w' =>
                obtain rfl : w = w' := Option.some.inj hby
                exact reaches_scanned hstep hlock
        | _ => exact reaches_accessed rfl hstep hlock
      · apply ih.step (l := .act u a) (keepsPassed_of_not_scan (not_scan_quiet t))
        replace hstep : TicketWorkers.step a t = some t' := hstep
        simp [system, LockedWorkers.step, LockedWorkers.act, lift, quiet, hfailed, hlocks, hby,
          hstep]

end Runs

/-- The critical sections are atomic as long as no fiber that a scan in progress has passed over
stops executing: the states that are reached so are those that the threads reach with a scan
that is a single step. -/
theorem reachable_iff {t : TicketWorkers κ} :
  (∃ s, (system κ).Reaches KeepsPassed s ∧ s.toTicketWorkers = t) ↔
    (TicketWorkers.system κ).Reachable t
  := by
  constructor
  · rintro ⟨s, hs, rfl⟩
    exact (reaches_atomic hs).2
  · intro ht
    exact ⟨quiet t, reaches_quiet ht, rfl⟩

/-! ### Runs -/

/-- Nothing has been scheduled yet. -/
def start : LockedWorkers ℕ where
  toTicketWorkers := TicketWorkers.start
  mMutex := none
  critical _ := none

theorem start_reachable :
  (system ℕ).Reachable start
  := .init ⟨⟨Workers.empty_initial, rfl⟩, rfl, fun _ => rfl⟩

/-- A thread puts an entry into the queue. -/
def schedules (u : Actor) (a : WbServer.Action ℕ) : List (Action ℕ) :=
  [.lock u a, .access u, .unlock u]

/-- Thread `1` executes fiber `0`, which schedules itself; thread `2` passes over its entry. -/
def passing : List (Action ℕ) :=
  [.act (.other 0) (.schedule (.newFiber (some (.task 0))))] ++
    schedules (.other 0) (.schedule (.scheduler (some (.fiber 0)) (-1))) ++
    [.act (.worker 1) (.run 1), .act (.worker 2) (.run 2), .lock (.worker 1) (.scan 1), .look 1,
      .unlock (.worker 1), .act (.worker 1) (.dispatch 1), .act (.worker 1) (.count 1),
      .act (.worker 1) (.swapIn 1)] ++
    schedules (.worker 1) (.call 1 (.scheduler (some (.fiber 0)) (-1))) ++
    schedules (.worker 1) (.call 1 (.scheduler (some (.fiber 0)) (-1))) ++
    [.lock (.worker 2) (.scan 2), .look 2]

/-- Fiber `0` yields, and thread `2` takes the next entry. -/
def overtaking : List (Action ℕ) :=
  passing ++ [.act (.worker 1) (.leave 1 (.yieldToReady (.task 1))), .look 2]

theorem served_under_lock_overtaking :
  ∃ s, (system ℕ).exec overtaking start = some s ∧ s.tickets.At 2 (.hands 2) ∧
    s.tickets.At 1 .queue ∧ ∃! p, s.tickets.At 1 p
  := by
  have hview : ((system ℕ).exec overtaking start).map (fun s =>
      (s.tickets.held 2, s.tickets.waiting, s.tickets.entries.length)) =
    some (some 2, [1], 3) := by decide +kernel
  obtain ⟨s, hs, hview⟩ := Option.map_eq_some_iff.mp hview
  rw [Prod.mk.injEq, Prod.mk.injEq] at hview
  obtain ⟨hheld, hwaiting, hlength⟩ := hview
  refine ⟨s, hs, hheld, ?_, ?_⟩
  · simp [Tickets.At, hwaiting]
  · apply (served_under_lock (start_reachable.exec overtaking hs)).2.2.2.1
    rw [hlength]
    decide

/-- Thread `2` takes the second of two entries of fiber `0`, which has stopped executing in
between, and leaves the first one in the queue: no atomic scan does this. -/
theorem overtaking_not_atomic :
  ∃ s, (system ℕ).Reachable s ∧ ¬ (TicketWorkers.system ℕ).Reachable s.toTicketWorkers
  := by
  have hview : ((system ℕ).exec overtaking start).map (fun s =>
      (s.tickets.waiting, s.tickets.entries[1]?, s.tickets.entries[2]?)) =
    some ([1], some ⟨.fiber 0, -1⟩, some ⟨.fiber 0, -1⟩) := by decide +kernel
  obtain ⟨s, hs, hview⟩ := Option.map_eq_some_iff.mp hview
  rw [Prod.mk.injEq, Prod.mk.injEq] at hview
  obtain ⟨hwaiting, hfirst, hsecond⟩ := hview
  refine ⟨s, start_reachable.exec overtaking hs, fun hatomic => ?_⟩
  have hfifo := TicketWorkers.reachable_fifo hatomic ⟨.fiber 0, -1⟩
  have hmem := hfifo 1 2 _ _ Nat.one_lt_two hfirst hsecond rfl rfl (by simp [hwaiting])
  simp [hwaiting] at hmem

end LockedWorkers

end WbServer
