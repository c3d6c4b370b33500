import WbServer.Base.Pointers
import WbServer.Scheduler.Handled

/-!
# The lifetime of fibers

A fiber is destroyed when its last `Fiber::ptr` goes away, and the destructor asserts that it is
`INIT`, `TERM` or `EXCEPT`. `Lifetimes` adds to the scheduler and its threads the pointers to
the fibers: those of the queue, of the variables of `run`, of the functions that execute on the
stacks of the fibers, and of the tasks and the rest of the program.

A fiber that has yielded owns itself, by the variable `cur` of `MainFunc` on its stack. As long
as no thread chooses a fiber that another thread handles, no fiber is destroyed in use
(`Lifetimes.destroyed_unused`), and a fiber that nothing but its own stack points to stays
suspended for ever (`Lifetimes.abandoned_stays`).
-/

namespace WbServer

variable {κ : Type}

/-- Where a `Fiber::ptr` is. -/
inductive Fiber.Holder where
  /-- In an entry of `m_fibers`. -/
  | queue
  /-- In `ft` of `run`. -/
  | ft (w : ThreadId)
  /-- `cb_fiber` of `run`. -/
  | cbFiber (w : ThreadId)
  /-- `idle_fiber` of `run`. -/
  | idleFiber (w : ThreadId)
  /-- `cur` of `MainFunc`, on the stack of the fiber. -/
  | mainFunc
  /-- `cur` of `YieldToReady` or `YeidToHold`, on the stack of the fiber. -/
  | yield
  /-- A variable of a task, of a callback or of the rest of the program. -/
  | task
  deriving DecidableEq

open WbServer.Fiber (Holder)

namespace Fiber.Holder

/-- The thread whose variable it is. -/
def thread? : Holder → Option ThreadId
  | .ft w => some w
  | .cbFiber w => some w
  | .idleFiber w => some w
  | _ => none

/-- The pointer is on the stack of the fiber it leads to. -/
def OnStack (p : Holder) : Prop := p = .mainFunc ∨ p = .yield

/-- The variable is reset. -/
def reset (p : Holder) (held : List (Holder × FiberId)) : List (Holder × FiberId) :=
  held.filter fun q => q.1 ≠ p

/-- The pointers that are left when a variable has been reset. -/
@[simp]
theorem mem_reset {p : Holder} {held : List (Holder × FiberId)} {q : Holder × FiberId} :
  q ∈ p.reset held ↔ q ∈ held ∧ q.1 ≠ p
  := by
  simp [reset]

end Fiber.Holder

/-- The variable that holds the fiber of a branch. -/
@[simp]
def Branch.holder (w : ThreadId) : Branch → Holder
  | .fiber => .ft w
  | .cb => .cbFiber w
  | .idle => .idleFiber w

/-- The variable of a branch is reset; the idle fiber is kept. -/
def Branch.giveUp (w : ThreadId) (held : List (Holder × FiberId)) (b : Branch) :
    List (Holder × FiberId) :=
  if b = .idle then held else (b.holder w).reset held

/-- The pointer by which a thread refers to the fiber at hand. -/
@[simp]
def Pc.via (w : ThreadId) : Pc κ → Option (Holder × FiberId)
  | .dispatch (some ⟨.fiber f, _⟩) => some (.ft w, f)
  | .count b f => some (b.holder w, f)
  | .enter b f => some (b.holder w, f)
  | .inside b f => some (b.holder w, f)
  | .leaving b f _ => some (b.holder w, f)
  | .back b f => some (b.holder w, f)
  | .settle b f => some (b.holder w, f)
  | .requeue b f => some (b.holder w, f)
  | _ => none

/-- A thread that is about a fiber has a pointer to it. -/
theorem Pc.exists_via {pc : Pc κ} {f : FiberId} (h : pc.fiber? = some f) (w : ThreadId) :
  ∃ p, pc.via w = some (p, f) ∧ p.thread? = some w
  := by
  have hthread (b : Branch) : (b.holder w).thread? = some w := by cases b <;> rfl
  unfold Pc.fiber? at h
  split at h
  case h_1 =>
    cases h
    exact ⟨.ft w, rfl, rfl⟩
  case h_9 => cases h
  all_goals
    cases h
    exact ⟨_, rfl, hthread _⟩

/-- That pointer is a variable of the thread. -/
theorem Pc.thread?_of_via {pc : Pc κ} {w : ThreadId} {p : Holder} {f : FiberId}
    (h : pc.via w = some (p, f)) :
  p.thread? = some w
  := by
  have hthread (b : Branch) : (b.holder w).thread? = some w := by cases b <;> rfl
  unfold Pc.via at h
  split at h
  case h_1 =>
    cases h
    rfl
  case h_9 => cases h
  all_goals
    cases h
    apply hthread

/-- The fiber of an entry that holds one. -/
def FiberAndThread.fiber? (ft : FiberAndThread κ) : Option FiberId :=
  match ft.task with
  | .fiber f => some f
  | .cb _ => none

/-! ### The pointers -/

/-- The caller has the pointer that it passes: it holds it, or it is executed in the fiber. -/
def Call.Passes (next : FiberId) (held : List (Holder × FiberId)) (running : Option FiberId) :
    Call κ → Prop
  | .scheduler (some (.fiber f)) _ => f < next → (.task, f) ∈ held ∨ running = some f
  | _ => True

instance (next : FiberId) (held : List (Holder × FiberId)) (running : Option FiberId) :
    (c : Call κ) → Decidable (c.Passes next held running)
  | .scheduler (some (.fiber f)) _ =>
      inferInstanceAs (Decidable (f < next → (.task, f) ∈ held ∨ running = some f))
  | .scheduler (some (.cb _)) _ => inferInstanceAs (Decidable True)
  | .scheduler none _ => inferInstanceAs (Decidable True)
  | .newFiber _ => inferInstanceAs (Decidable True)

/-- The pointers behind a call. -/
def Call.pointers (next : FiberId) (held : List (Holder × FiberId)) :
    Call κ → List (Holder × FiberId)
  | .scheduler (some (.fiber f)) _ => if f < next then (.queue, f) :: held else held
  | .scheduler _ _ => held
  | .newFiber _ => (.task, next) :: held

namespace Action

/-- The code that calls has the pointer that it passes. -/
def Passes (s : Workers κ) (held : List (Holder × FiberId)) : Action κ → Prop
  | .call w c => c.Passes s.next held (s.worker w).pc.running
  | .schedule c => c.Passes s.next held none
  | _ => True

instance (s : Workers κ) (held : List (Holder × FiberId)) :
    (a : Action κ) → Decidable (a.Passes s held)
  | .call w c => inferInstanceAs (Decidable (c.Passes s.next held (s.worker w).pc.running))
  | .schedule c => inferInstanceAs (Decidable (c.Passes s.next held none))
  | .run _ | .scan _ | .dispatch _ | .count _ | .swapIn _ | .leave _ _ | .swapOut _ | .uncount _
  | .settle _ | .requeue _ | .setStoping _ | .setAutoStop _ => inferInstanceAs (Decidable True)

/-- The pointers behind a step from `s` to `t`. -/
def pointers (s t : Workers κ) (held : List (Holder × FiberId)) :
    Action κ → List (Holder × FiberId)
  | .run w => (.idleFiber w, s.next) :: held
  | .scan w =>
      -- `ft` is reset at the head of the loop, and takes the entry over
      match (t.worker w).pc with
      | .dispatch (some ⟨.fiber f, _⟩) =>
          (.ft w, f) :: ((Holder.ft w).reset held).erase (.queue, f)
      | _ => (Holder.ft w).reset held
  | .dispatch w =>
      match (t.worker w).pc with
      -- the variables of `run` go out of scope
      | .outside => held.filter fun p => p.1.thread? ≠ some w
      | .count .cb f => if f = s.next then (.cbFiber w, f) :: held else held
      | _ => held
  | .swapIn w =>
      match (t.worker w).pc with
      | .inside _ f =>
          match (s.heap f).mCtx with
          | .entry => (.mainFunc, f) :: held
          | .suspended _ => held.filter fun p => p ≠ (.yield, f)
          | .finished => held
      | _ => held
  | .call _ c => c.pointers s.next held
  | .leave w e =>
      match (s.worker w).pc with
      | .inside _ f =>
          match e with
          | .yieldToReady _ => (.yield, f) :: held
          | .yeidToHold _ => (.yield, f) :: held
          | .ret => held.filter fun p => p ≠ (.mainFunc, f)
          | .throw => held.filter fun p => p ≠ (.mainFunc, f)
      | _ => held
  | .settle w =>
      match (s.worker w).pc with
      | .settle b f =>
          if (s.heap f).mState = .ready ∨ b = .cb ∧ (s.heap f).mState.Finished then held
          else b.giveUp w held
      | _ => held
  | .requeue w =>
      match (s.worker w).pc with
      | .requeue b f => (.queue, f) :: b.giveUp w held
      | _ => held
  | .schedule c => c.pointers s.next held
  | _ => held

end Action

/-- The scheduler, its threads and the pointers to the fibers. -/
structure Lifetimes (κ : Type) extends Workers κ where
  pointers : Pointers Holder FiberId
  /-- The assertion of a destructor has failed. -/
  destructorFailed : Bool

namespace Lifetimes

/-- The steps: those of the scheduler and its threads, and what else a task does with a
pointer. -/
inductive Action (κ : Type) where
  | scheduler (a : WbServer.Action κ)
  | copy (f : FiberId)
  | getThis (w : ThreadId)
  | drop (f : FiberId)

/-- The pointers become `held`; the destructors assert the state of their fibers. -/
def setPointers (s : Lifetimes κ) (t : Workers κ) (held : List (Holder × FiberId)) :
    Lifetimes κ where
  toWorkers := t
  pointers := s.pointers.update held
  destructorFailed := (s.pointers.lost held).any fun f => ¬ (t.heap f).mState.Resettable

/-- The step function, without the test for a failed assertion. -/
def act (s : Lifetimes κ) : Action κ → Option (Lifetimes κ)
  | .scheduler a =>
      if a.Passes s.toWorkers s.pointers.held then
        (Workers.step a s.toWorkers).map fun t =>
          s.setPointers t (a.pointers s.toWorkers t s.pointers.held)
      else none
  | .copy f =>
      if (.task, f) ∈ s.pointers.held then
        some (s.setPointers s.toWorkers ((.task, f) :: s.pointers.held))
      else none
  | .getThis w =>
      match (s.worker w).pc with
      | .inside _ f =>
          if (s.heap f).isEmpty then none
          else some (s.setPointers s.toWorkers ((.task, f) :: s.pointers.held))
      | _ => none
  | .drop f =>
      if (.task, f) ∈ s.pointers.held then
        some (s.setPointers s.toWorkers (s.pointers.held.erase (.task, f)))
      else none

/-- A step of the scheduler, its threads and the pointers. -/
def step (a : Action κ) (s : Lifetimes κ) : Option (Lifetimes κ) :=
  if s.destructorFailed then none else s.act a

/-- No fiber has been constructed, and no thread has called `run`. -/
structure Initial (s : Lifetimes κ) : Prop where
  workers : Workers.Initial s.toWorkers
  next : s.next = 0
  pointers : s.pointers = .new
  destructor : s.destructorFailed = false

/-- The transition system of a scheduler, its threads and the pointers. -/
def system (κ : Type) : Transition.System (Lifetimes κ) (Action κ) where
  init := Initial
  step := step

/-- At a dispatch, the thread does not choose a fiber that another thread handles. -/
def Unhandled (a : Action κ) (s : Lifetimes κ) : Prop :=
  ∀ b, a = .scheduler b → Workers.Unhandled b s.toWorkers

/-! ### The invariant -/

/-- What the pointers are, as long as no thread chooses a fiber that another thread handles. -/
structure Counted (s : Lifetimes κ) : Prop where
  exact : s.pointers.Exact (· < s.next)
  queue : ∀ f, s.pointers.held.count (.queue, f) =
    (s.mFibers.filterMap FiberAndThread.fiber?).count f
  via : ∀ w p, (s.worker w).pc.via w = some p → p ∈ s.pointers.held
  cbFiber : ∀ w f, (s.worker w).pc ≠ .outside → (s.worker w).cbFiber = some f →
    (.cbFiber w, f) ∈ s.pointers.held
  idleFiber : ∀ w, (s.worker w).pc ≠ .outside →
    (.idleFiber w, (s.worker w).idleFiber) ∈ s.pointers.held
  mainFunc : ∀ f < s.next, (.mainFunc, f) ∈ s.pointers.held ↔ s.Started f
  yield : ∀ f < s.next, (.yield, f) ∈ s.pointers.held ↔ s.Paused f
  destructor : s.destructorFailed = false

/-- A pointer leads to the fiber that is not on its stack. -/
def Reached (s : Lifetimes κ) (f : FiberId) : Prop :=
  ∃ p, ¬ p.OnStack ∧ (p, f) ∈ s.pointers.held

/-- A thread refers to the fiber. -/
def Refers (s : Lifetimes κ) (w : ThreadId) (f : FiberId) : Prop :=
  (s.worker w).pc.fiber? = some f ∨
    (s.worker w).pc ≠ .outside ∧ ((s.worker w).cbFiber = some f ∨ (s.worker w).idleFiber = f)

variable {s : Lifetimes κ} {t : Workers κ} {w : ThreadId} {held : List (Holder × FiberId)}

/-- A variable of a thread is not on the stack of a fiber. -/
theorem not_onStack {p : Holder} (h : p.thread? = some w) :
  ¬ p.OnStack
  := by
  rintro (rfl | rfl) <;> cases h

/-- What a thread refers to, a pointer leads to. -/
theorem Counted.reached (h : s.Counted) {f : FiberId} (hf : s.Refers w f) :
  s.Reached f
  := by
  obtain hf | ⟨hpc, hf | rfl⟩ := hf
  · obtain ⟨p, hp, hthread⟩ := Pc.exists_via hf w
    exact ⟨p, not_onStack hthread, h.via w _ hp⟩
  · exact ⟨.cbFiber w, not_onStack rfl, h.cbFiber w f hpc hf⟩
  · exact ⟨.idleFiber w, not_onStack rfl, h.idleFiber w hpc⟩

/-- What is in the queue, a pointer leads to. -/
theorem Counted.queued (h : s.Counted) {f : FiberId} {thread : ℤ}
    (hf : ⟨.fiber f, thread⟩ ∈ s.mFibers) :
  (.queue, f) ∈ s.pointers.held
  := by
  rw [← List.count_pos_iff, h.queue, List.count_pos_iff]
  exact List.mem_filterMap.mpr ⟨_, hf, rfl⟩

/-- New pointers lead to fibers that are reached, or that have just been constructed. -/
structure Sources (s : Lifetimes κ) (t : Workers κ) (held : List (Holder × FiberId)) : Prop where
  next : t.next = s.next ∧ (∀ p, (p, s.next) ∉ held) ∨
    t.next = s.next + 1 ∧ ∃ p, (p, s.next) ∈ held
  source : ∀ p f, (p, f) ∈ held → (p, f) ∈ s.pointers.held ∨ f = s.next ∨ s.Reached f

theorem Sources.le (h : s.Sources t held) :
  s.next ≤ t.next
  := by
  obtain ⟨hnext, -⟩ | ⟨hnext, -⟩ := h.next <;> rw [hnext]
  apply Nat.le_succ

/-- Pointers that lead to constructed fibers keep the accounts exact. -/
theorem Sources.exact (hheld : s.Sources t held) (h : s.Counted) :
  (s.setPointers t held).pointers.Exact (· < t.next)
  := by
  have hlt (p : Holder) (f : FiberId) (hp : (p, f) ∈ held) : f < t.next := by
    obtain hp' | rfl | ⟨q, -, hq⟩ := hheld.source p f hp
    · apply Nat.lt_of_lt_of_le (h.exact.held f ⟨p, hp'⟩) hheld.le
    · obtain ⟨-, hnone⟩ | ⟨hnext, -⟩ := hheld.next
      · exact absurd hp (hnone p)
      · rw [hnext]
        apply Nat.lt_succ_self
    · apply Nat.lt_of_lt_of_le (h.exact.held f ⟨q, hq⟩) hheld.le
  apply h.exact.update
  · intro f
    constructor
    · intro hf
      obtain ⟨hnext, -⟩ | ⟨hnext, p, hp⟩ := hheld.next
      · exact .inl (hnext ▸ hf)
      · rw [hnext] at hf
        obtain hlt | rfl := Nat.lt_succ_iff_lt_or_eq.mp hf
        · exact .inl hlt
        · exact .inr ⟨p, hp⟩
    · rintro (hf | ⟨p, hp⟩)
      · apply Nat.lt_of_lt_of_le hf hheld.le
      · apply hlt p f hp
  · intro p f hp
    obtain hp | rfl | ⟨q, -, hq⟩ := hheld.source p f hp
    · exact .inl ⟨p, hp⟩
    · exact .inr (Nat.lt_irrefl _)
    · exact .inl ⟨q, hq⟩

/-- The step of a thread `w`, by which the other threads lose no pointers. -/
theorem Counted.step (h : s.Counted) (horderly : t.Orderly) (hheld : s.Sources t held)
    (hothers : ∀ w' ≠ w, t.worker w' = s.worker w')
    (hkeep : ∀ w' ≠ w, ∀ p f, p.thread? = some w' → (p, f) ∈ s.pointers.held → (p, f) ∈ held)
    (hqueue : ∀ f, held.count (.queue, f) = (t.mFibers.filterMap FiberAndThread.fiber?).count f)
    (hvia : ∀ p, (t.worker w).pc.via w = some p → p ∈ held)
    (hcb : ∀ f, (t.worker w).pc ≠ .outside → (t.worker w).cbFiber = some f →
      (.cbFiber w, f) ∈ held)
    (hidle : (t.worker w).pc ≠ .outside → (.idleFiber w, (t.worker w).idleFiber) ∈ held)
    (hmain : ∀ f < t.next, (.mainFunc, f) ∈ held ↔ t.Started f)
    (hyield : ∀ f < t.next, (.yield, f) ∈ held ↔ t.Paused f) :
  (s.setPointers t held).Counted
  := by
  constructor
  case exact => apply hheld.exact h
  case queue => apply hqueue
  case mainFunc => apply hmain
  case yield => apply hyield
  case via =>
    intro w' p hp
    by_cases hw : w' = w
    · apply hvia p (hw ▸ hp)
    · change (t.worker w').pc.via w' = some p at hp
      rw [hothers w' hw] at hp
      obtain ⟨p, f⟩ := p
      have hthread : p.thread? = some w' := Pc.thread?_of_via hp
      apply hkeep w' hw p f hthread (h.via w' _ hp)
  case cbFiber =>
    intro w' f hpc hf
    by_cases hw : w' = w
    · rw [hw] at hpc hf ⊢
      apply hcb f hpc hf
    · change (t.worker w').pc ≠ .outside at hpc
      change (t.worker w').cbFiber = some f at hf
      rw [hothers w' hw] at hpc hf
      apply hkeep w' hw _ f rfl (h.cbFiber w' f hpc hf)
  case idleFiber =>
    intro w' hpc
    by_cases hw : w' = w
    · rw [hw] at hpc ⊢
      apply hidle hpc
    · change (t.worker w').pc ≠ .outside at hpc
      change (.idleFiber w', (t.worker w').idleFiber) ∈ held
      rw [hothers w' hw] at hpc ⊢
      apply hkeep w' hw _ _ rfl (h.idleFiber w' hpc)
  case destructor =>
    simp only [setPointers, List.any_eq_false, decide_eq_true_eq, not_not]
    intro f hf
    obtain ⟨howned, hnone⟩ := Pointers.mem_lost.mp hf
    have hlt : f < t.next := Nat.lt_of_lt_of_le (h.exact.held f howned) hheld.le
    -- the fiber does not own itself, so that its callback has not started or has ended
    by_contra hreset
    exact hnone .mainFunc ((hmain f hlt).mpr ((horderly.started f hlt).mpr hreset))

/-! ### Pointers that go away -/

/-- The thread `w` gives up some of its variables. -/
def Drops (w : ThreadId) (held held' : List (Holder × FiberId)) : Prop :=
  ∃ q : Holder × FiberId → Bool, held' = held.filter q ∧ ∀ p, p.1.thread? ≠ some w → q p

section Drops

variable {held' : List (Holder × FiberId)} {p : Holder × FiberId}

theorem Drops.refl (w : ThreadId) (held : List (Holder × FiberId)) :
  Drops w held held
  := ⟨fun _ => true, by simp, fun _ _ => rfl⟩

theorem Drops.mem (h : Drops w held held') (hp : p ∈ held') :
  p ∈ held
  := by
  obtain ⟨q, rfl, -⟩ := h
  apply List.mem_of_mem_filter hp

/-- Pointers that are no variables of the thread stay. -/
theorem Drops.mem_iff (h : Drops w held held') (hp : p.1.thread? ≠ some w) :
  p ∈ held' ↔ p ∈ held
  := by
  obtain ⟨q, rfl, hq⟩ := h
  simp [hq p hp]

/-- Their number stays the same, too. -/
theorem Drops.count (h : Drops w held held') (hp : p.1.thread? ≠ some w) :
  held'.count p = held.count p
  := by
  obtain ⟨q, rfl, hq⟩ := h
  apply List.count_filter (hq p hp)

theorem drops_reset {p : Holder} (h : p.thread? = some w) :
  Drops w held (p.reset held)
  := by
  refine ⟨_, rfl, ?_⟩
  intro q hq
  apply decide_eq_true
  rintro rfl
  apply hq h

/-- At the end of its branch a thread gives up its own variables. -/
theorem drops_giveUp (b : Branch) :
  Drops w held (b.giveUp w held)
  := by
  cases b with
  | fiber => apply drops_reset rfl
  | cb => apply drops_reset rfl
  | idle => apply Drops.refl

/-- Another variable of the thread stays. -/
theorem mem_giveUp {b : Branch} (h : p ∈ held) (hp : b = .idle ∨ p.1 ≠ b.holder w) :
  p ∈ b.giveUp w held
  := by
  unfold Branch.giveUp
  split
  case isTrue => apply h
  case isFalse hb => exact Holder.mem_reset.mpr ⟨h, hp.resolve_left hb⟩

end Drops

variable (held) in
/-- The stacks hold pointers as long as they are left alone, and fibers that are new or reset
have not started. -/
theorem Counted.stack (h : s.Counted) (hs : s.Orderly) (ht : t.Orderly)
    (hpc : ∀ f w, (t.worker w).pc = (s.worker w).pc ∨
      (s.worker w).pc.executing ≠ some f ∧ (t.worker w).pc.executing ≠ some f)
    (hheap : ∀ f < t.next, f < s.next ∧ (t.heap f).mCtx = (s.heap f).mCtx ∨
      (t.heap f).mState.Resettable ∧ (f < s.next → (s.heap f).mState.Resettable))
    (hmain : ∀ f, (.mainFunc, f) ∈ held ↔ (.mainFunc, f) ∈ s.pointers.held)
    (hyield : ∀ f, (.yield, f) ∈ held ↔ (.yield, f) ∈ s.pointers.held) :
  (∀ f < t.next, (.mainFunc, f) ∈ held ↔ t.Started f) ∧
    ∀ f < t.next, (.yield, f) ∈ held ↔ t.Paused f
  := by
  rw [← forall₂_and]
  intro f hf
  rw [hmain, hyield]
  obtain ⟨hlt, hctx⟩ | ⟨hreset, hbefore⟩ := hheap f hf
  · rw [h.mainFunc f hlt, h.yield f hlt, Workers.started_congr (hpc f) hctx,
      Workers.paused_congr (hpc f) hctx]
    exact ⟨Iff.rfl, Iff.rfl⟩
  · have hnot : ¬ t.Started f := fun hstarted => (ht.started f hf).mp hstarted hreset
    have hnone (p : Holder) (hp : p.OnStack) : (p, f) ∉ s.pointers.held := by
      intro hmem
      have hlt := h.exact.held f ⟨p, hmem⟩
      have hstarted : s.Started f := by
        obtain rfl | rfl := hp
        · exact (h.mainFunc f hlt).mp hmem
        · exact .inr ((h.yield f hlt).mp hmem)
      exact (hs.started f hlt).mp hstarted (hbefore hlt)
    exact ⟨iff_of_false (hnone _ (.inl rfl)) hnot,
      iff_of_false (hnone _ (.inr rfl)) fun hpaused => hnot (.inr hpaused)⟩

/-- The step of a thread that executes no fiber, constructs none and leaves the queue alone,
while it may give up variables. -/
theorem Counted.go (h : s.Counted) (hs : s.Orderly) (ht : t.Orderly)
    (hothers : ∀ w' ≠ w, t.worker w' = s.worker w') (hnext : t.next = s.next)
    (hfibers : t.mFibers = s.mFibers) (hexec : (s.worker w).pc.executing = none)
    (hexec' : (t.worker w).pc.executing = none)
    (hheap : ∀ f, (t.heap f).mCtx = (s.heap f).mCtx ∨
      (t.heap f).mState.Resettable ∧ (s.heap f).mState.Resettable)
    (hdrops : Drops w s.pointers.held held)
    (hvia : ∀ p, (t.worker w).pc.via w = some p → p ∈ held)
    (hcb : ∀ f, (t.worker w).pc ≠ .outside → (t.worker w).cbFiber = some f →
      (.cbFiber w, f) ∈ held)
    (hidle : (t.worker w).pc ≠ .outside → (.idleFiber w, (t.worker w).idleFiber) ∈ held) :
  (s.setPointers t held).Counted
  := by
  have hpc : ∀ f w', (t.worker w').pc = (s.worker w').pc ∨
      (s.worker w').pc.executing ≠ some f ∧ (t.worker w').pc.executing ≠ some f := by
    intro f
    apply Workers.pc_or_of_others hothers
    · rw [hexec]
      exact fun hf => by cases hf
    · rw [hexec']
      exact fun hf => by cases hf
  have hstack := h.stack held hs ht hpc
    (fun f hf => (hheap f).imp (fun hctx => ⟨hnext ▸ hf, hctx⟩) (And.imp_right fun hr _ => hr))
    (fun f => hdrops.mem_iff (by simp [Holder.thread?]))
    (fun f => hdrops.mem_iff (by simp [Holder.thread?]))
  apply h.step ht _ hothers _ _ hvia hcb hidle hstack.1 hstack.2
  · constructor
    case next =>
      left
      refine ⟨hnext, fun p hp => Nat.lt_irrefl s.next (h.exact.held _ ⟨p, hdrops.mem hp⟩)⟩
    case source => exact fun p f hp => .inl (hdrops.mem hp)
  · intro w' hw p f hthread hp
    rw [hdrops.mem_iff]
    · apply hp
    · simpa [hthread] using hw
  · intro f
    rw [hdrops.count (by simp [Holder.thread?]), h.queue, hfibers]

/-! ### The steps -/

/-- A fiber is constructed for the variable `p` of a thread that executes no fiber. -/
theorem Counted.alloc (h : s.Counted) (hs : s.Orderly) (ht : t.Orderly) {p : Holder}
    {cb : Option (Code κ)} {wk : Worker κ} (hworker : t.worker = Function.update s.worker w wk)
    (hheap : t.heap = Function.update s.heap s.next (Fiber.new cb)) (hnext : t.next = s.next + 1)
    (hfibers : t.mFibers = s.mFibers) (hp : p.thread? = some w)
    (hexec : (s.worker w).pc.executing = none) (hexec' : wk.pc.executing = none)
    (hvia : ∀ q, wk.pc.via w = some q → q ∈ (p, s.next) :: s.pointers.held)
    (hcb : ∀ f, wk.cbFiber = some f → (.cbFiber w, f) ∈ (p, s.next) :: s.pointers.held)
    (hidle : (.idleFiber w, wk.idleFiber) ∈ (p, s.next) :: s.pointers.held) :
  (s.setPointers t ((p, s.next) :: s.pointers.held)).Counted
  := by
  have hself : t.worker w = wk := by rw [hworker, Function.update_self]
  have hothers : ∀ w' ≠ w, t.worker w' = s.worker w' := by
    intro w' hw
    rw [hworker, Function.update_of_ne hw]
  have hne (q : Holder × FiberId) (hq : q.1.thread? ≠ some w) : q ≠ (p, s.next) := by
    rintro rfl
    apply hq hp
  have hmem (q : Holder × FiberId) (hq : q.1.thread? ≠ some w) :
      q ∈ (p, s.next) :: s.pointers.held ↔ q ∈ s.pointers.held := by
    rw [List.mem_cons, or_iff_right (hne q hq)]
  have hstack := h.stack ((p, s.next) :: s.pointers.held) hs ht
    (fun f => Workers.pc_or_of_others hothers (by simp only [hexec]; exact nofun)
      (by simp only [hself, hexec']; exact nofun))
    (fun f hf => by
      rw [hnext] at hf
      by_cases hf' : f = s.next
      · exact .inr ⟨by simp [hheap, hf', Fiber.new, Fiber.State.Resettable], by simp [hf']⟩
      · exact .inl ⟨Nat.lt_of_le_of_ne (Nat.le_of_lt_succ hf) hf', by simp [hheap, hf']⟩)
    (fun f => hmem _ (by simp [Holder.thread?]))
    (fun f => hmem _ (by simp [Holder.thread?]))
  apply h.step ht _ hothers _ _ _ _ _ hstack.1 hstack.2
  · constructor
    case next => exact .inr ⟨hnext, p, by simp⟩
    case source =>
      intro q f hq
      obtain heq | hq := List.mem_cons.mp hq
      · exact .inr (.inl (Prod.mk.inj heq).2)
      · exact .inl hq
  · exact fun w' hw q f _ hq => List.mem_cons_of_mem _ hq
  · intro f
    rw [List.count_cons_of_ne (hne _ (by simp [Holder.thread?])).symm, h.queue, hfibers]
  · rwa [hself]
  · rw [hself]
    exact fun f _ => hcb f
  · rw [hself]
    exact fun _ => hidle

/-- A thread enters `run()` and keeps a pointer to its idle fiber. -/
theorem Counted.run (h : s.Counted) (hs : s.Orderly) (ht : t.Orderly)
    (hstep : s.stepRun w = some t) :
  (s.setPointers t ((.idleFiber w, s.next) :: s.pointers.held)).Counted
  := by
  obtain ⟨hpc, rfl⟩ := Workers.stepRun_cases hstep
  apply h.alloc hs ht rfl rfl rfl rfl rfl <;> simp [hpc]

/-- The thread moves to another place, and may give up variables. -/
theorem Counted.move (h : s.Counted) (hs : s.Orderly) {pc : Pc κ}
    (ht : (t.setPc w pc).Orderly) (hworker : t.worker = s.worker) (hnext : t.next = s.next)
    (hfibers : t.mFibers = s.mFibers) (hexec : (s.worker w).pc.executing = none)
    (hexec' : pc.executing = none)
    (hheap : ∀ f, (t.heap f).mCtx = (s.heap f).mCtx ∨
      (t.heap f).mState.Resettable ∧ (s.heap f).mState.Resettable)
    (hdrops : Drops w s.pointers.held held) (hvia : ∀ p, pc.via w = some p → p ∈ held)
    (hin : (s.worker w).pc ≠ .outside)
    (hvars : pc ≠ .outside → ∀ p ∈ s.pointers.held, p.1 = .cbFiber w ∨ p.1 = .idleFiber w →
      p ∈ held) :
  (s.setPointers (t.setPc w pc) held).Counted
  := by
  have hself : (t.setPc w pc).worker w = { s.worker w with pc := pc } := by
    simp [Workers.setPc, hworker]
  have hothers : ∀ w' ≠ w, (t.setPc w pc).worker w' = s.worker w' := by
    intro w' hw
    rw [Workers.setPc_of_ne _ hw, hworker]
  apply h.go hs ht hothers hnext hfibers hexec _ hheap hdrops
  · rwa [hself]
  · rw [hself]
    exact fun f hpc hf => hvars hpc _ (h.cbFiber w f hin hf) (.inl rfl)
  · rw [hself]
    exact fun hpc => hvars hpc _ (h.idleFiber w hin) (.inr rfl)
  · rwa [hself]

/-- An entry that is taken out of the queue. -/
theorem count_fibers {pre post : List (FiberAndThread κ)} {ft : FiberAndThread κ} (f : FiberId) :
  ((pre ++ ft :: post).filterMap FiberAndThread.fiber?).count f =
    ((pre ++ post).filterMap FiberAndThread.fiber?).count f + ft.fiber?.toList.count f
  := by
  have hperm : (pre ++ ft :: post).Perm (pre ++ post ++ [ft]) := by
    rw [List.append_assoc]
    exact (List.perm_append_singleton ft post).symm.append_left pre
  rw [(hperm.filterMap _).count_eq, List.filterMap_append, List.count_append]
  cases hft : ft.fiber? <;> simp [hft]

/-- The thread takes an entry that holds no fiber, or finds none. -/
theorem Counted.scanned (h : s.Counted) (hs : s.Orderly) (hpc : (s.worker w).pc = .head)
    (ft : Option (FiberAndThread κ)) {rest : List (FiberAndThread κ)}
    (hft : (Pc.dispatch ft).via w = none)
    (hrest : rest.filterMap FiberAndThread.fiber? = s.mFibers.filterMap FiberAndThread.fiber?)
    (ht : ({ s.toWorkers with mFibers := rest }.setPc w (.dispatch ft)).Orderly) :
  (s.setPointers ({ s.toWorkers with mFibers := rest }.setPc w (.dispatch ft))
    ((Holder.ft w).reset s.pointers.held)).Counted
  := by
  have ht' : (s.toWorkers.setPc w (.dispatch ft)).Orderly := ⟨ht.single, ht.ended, ht.started⟩
  have hdrops : Drops w s.pointers.held ((Holder.ft w).reset s.pointers.held) :=
    drops_reset rfl
  have hcounted : (s.setPointers (s.toWorkers.setPc w (.dispatch ft))
      ((Holder.ft w).reset s.pointers.held)).Counted := by
    apply h.move hs ht' rfl rfl rfl _ _ (fun _ => .inl rfl) hdrops
    · rw [hft]
      exact fun p hp => by cases hp
    · simp [hpc]
    · intro _ p hp hvar
      apply Holder.mem_reset.mpr ⟨hp, _⟩
      obtain hvar | hvar := hvar <;> simp [hvar]
    · simp [hpc]
    · rfl
  exact { hcounted with
    queue := fun f => (hcounted.queue f).trans (by simp [setPointers, Workers.setPc, hrest]) }

/-- The thread takes a fiber out of the queue. -/
theorem Counted.taken (h : s.Counted) (hs : s.Orderly) (hpc : (s.worker w).pc = .head)
    {f : FiberId} {thread : ℤ} {pre post : List (FiberAndThread κ)}
    (hfibers : s.mFibers = pre ++ ⟨.fiber f, thread⟩ :: post)
    (ht : ({ s.toWorkers with mFibers := pre ++ post }.setPc w
      (.dispatch (some ⟨.fiber f, thread⟩))).Orderly) :
  (s.setPointers ({ s.toWorkers with mFibers := pre ++ post }.setPc w
      (.dispatch (some ⟨.fiber f, thread⟩)))
    ((.ft w, f) :: ((Holder.ft w).reset s.pointers.held).erase (.queue, f))).Counted
  := by
  have hentry : ⟨.fiber f, thread⟩ ∈ s.mFibers := by simp [hfibers]
  have hqueue : (.queue, f) ∈ s.pointers.held := h.queued hentry
  have hothers : ∀ w' ≠ w, ({ s.toWorkers with mFibers := pre ++ post }.setPc w
      (.dispatch (some ⟨.fiber f, thread⟩))).worker w' = s.worker w' :=
    fun w' hw => Workers.setPc_of_ne _ hw _
  have hdrops : Drops w s.pointers.held ((Holder.ft w).reset s.pointers.held) :=
    drops_reset rfl
  have hheld (p : Holder × FiberId) (hw : p.1.thread? ≠ some w) (hne : p.1 ≠ .queue) :
      p ∈ (.ft w, f) :: ((Holder.ft w).reset s.pointers.held).erase (.queue, f) ↔
        p ∈ s.pointers.held := by
    have hft : p ≠ (.ft w, f) := by
      rintro rfl
      apply hw rfl
    have hqueue : p ≠ (.queue, f) := by
      rintro rfl
      apply hne rfl
    rw [List.mem_cons, or_iff_right hft, List.mem_erase_of_ne hqueue, hdrops.mem_iff hw]
  have hstack := h.stack
    ((.ft w, f) :: ((Holder.ft w).reset s.pointers.held).erase (.queue, f)) hs ht
    (fun g => Workers.pc_or_of_others hothers (by simp [hpc]) (by simp))
    (fun g hg => .inl ⟨hg, rfl⟩)
    (fun g => hheld _ (by simp [Holder.thread?]) (by simp))
    (fun g => hheld _ (by simp [Holder.thread?]) (by simp))
  have hsource : ∀ p g,
      (p, g) ∈ (.ft w, f) :: ((Holder.ft w).reset s.pointers.held).erase (.queue, f) →
      g = f ∨ (p, g) ∈ s.pointers.held := by
    intro p g hp
    obtain heq | hp := List.mem_cons.mp hp
    · exact .inl (Prod.mk.inj heq).2
    · exact .inr (Holder.mem_reset.mp (List.mem_of_mem_erase hp)).1
  have hvar (p : Holder × FiberId) (hp : p ∈ s.pointers.held) (hft : p.1 ≠ .ft w)
      (hne : p.1 ≠ .queue) :
      p ∈ (.ft w, f) :: ((Holder.ft w).reset s.pointers.held).erase (.queue, f) := by
    have hqueue : p ≠ (.queue, f) := by
      rintro rfl
      apply hne rfl
    apply List.mem_cons_of_mem
    rw [List.mem_erase_of_ne hqueue]
    exact Holder.mem_reset.mpr ⟨hp, hft⟩
  apply h.step ht _ hothers _ _ _ _ _ hstack.1 hstack.2
  · constructor
    case next =>
      left
      refine ⟨rfl, fun p hp => ?_⟩
      obtain hf | hp := hsource p _ hp
      · exact Nat.ne_of_lt (h.exact.held f ⟨_, hqueue⟩) hf.symm
      · exact Nat.lt_irrefl s.next (h.exact.held _ ⟨p, hp⟩)
    case source =>
      intro p g hp
      obtain rfl | hp := hsource p g hp
      · exact .inr (.inr ⟨.queue, by simp [Holder.OnStack], hqueue⟩)
      · exact .inl hp
  · intro w' hw p g hthread hp
    rw [hheld]
    · apply hp
    · simpa [hthread] using hw
    · rintro rfl
      cases hthread
  · intro g
    rw [List.count_cons_of_ne (by simp), List.count_erase, hdrops.count (by simp [Holder.thread?]),
      h.queue, hfibers, count_fibers]
    change _ = ((pre ++ post).filterMap FiberAndThread.fiber?).count g
    by_cases hg : f = g
    · simp [FiberAndThread.fiber?, hg]
    · simp [FiberAndThread.fiber?, hg]
  · simp
  · intro g _ hg
    apply hvar _ (h.cbFiber w g (by simp [hpc]) (by simpa [Workers.setPc] using hg))
    · simp
    · simp
  · intro _
    have hidle : (({ s.toWorkers with mFibers := pre ++ post }.setPc w
        (.dispatch (some ⟨.fiber f, thread⟩))).worker w).idleFiber = (s.worker w).idleFiber := by
      simp [Workers.setPc]
    rw [hidle]
    apply hvar _ (h.idleFiber w (by simp [hpc]))
    · simp
    · simp

/-- A pointer moves from the queue to the hands of the thread. -/
theorem Counted.scan (h : s.Counted) (hs : s.Orderly) (ht : t.Orderly)
    (hstep : s.stepScan w = some t) :
  (s.setPointers t ((WbServer.Action.scan w).pointers s.toWorkers t s.pointers.held)).Counted
  := by
  obtain ⟨hpc, ⟨-, rfl⟩ | ⟨⟨task, thread⟩, rest, hscan, rfl⟩⟩ := Workers.stepScan_cases hstep
  · have hcounted := h.scanned hs hpc none rfl rfl ht
    simpa [Action.pointers] using hcounted
  · obtain ⟨pre, post, hfibers, rfl, -⟩ := scan_eq_some hscan
    cases task with
    | cb c =>
        have hcounted := h.scanned hs hpc (some ⟨.cb c, thread⟩) rfl
          (by simp [hfibers, List.filterMap_cons, FiberAndThread.fiber?]) ht
        simpa [Action.pointers] using hcounted
    | fiber f =>
        have hcounted := h.taken hs hpc hfibers ht
        simpa [Action.pointers] using hcounted

/-- The thread moves to another place with the pointers it has. -/
theorem Counted.stay (h : s.Counted) (hs : s.Orderly) {pc : Pc κ} (ht : (t.setPc w pc).Orderly)
    (hworker : t.worker = s.worker) (hnext : t.next = s.next) (hfibers : t.mFibers = s.mFibers)
    (hexec : (s.worker w).pc.executing = none) (hexec' : pc.executing = none)
    (hheap : ∀ f, (t.heap f).mCtx = (s.heap f).mCtx ∨
      (t.heap f).mState.Resettable ∧ (s.heap f).mState.Resettable)
    (hvia : ∀ p, pc.via w = some p → p ∈ s.pointers.held)
    (hin : (s.worker w).pc ≠ .outside) :
  (s.setPointers (t.setPc w pc) s.pointers.held).Counted
  := h.move hs ht hworker hnext hfibers hexec hexec' hheap (Drops.refl w _) hvia hin
    fun _ _ hp _ => hp

/-- An assertion fails. -/
theorem Counted.fail (h : s.Counted) (hs : s.Orderly) (hexec : (s.worker w).pc.executing = none)
    (a : Assertion) :
  (s.setPointers (s.toWorkers.fail a) s.pointers.held).Counted
  := h.go hs (hs.fail a) (fun _ _ => rfl) rfl rfl hexec hexec (fun _ => .inl rfl)
    (Drops.refl w _) (h.via w) (h.cbFiber w) (h.idleFiber w)

/-- It is counted as active. -/
theorem Counted.count (h : s.Counted) (hs : s.Orderly) (ht : t.Orderly)
    (hstep : s.stepCount w = some t) :
  (s.setPointers t s.pointers.held).Counted
  := by
  obtain ⟨b, f, hpc, rfl⟩ := Workers.stepCount_cases hstep
  apply h.stay hs ht (Workers.increment_worker _ b)
  · cases b <;> rfl
  · cases b <;> rfl
  · simp [hpc]
  · simp
  · simp
  · exact fun p hp => h.via w p (by simpa [hpc] using hp)
  · simp [hpc]

/-- It is no longer counted as active. -/
theorem Counted.uncount (h : s.Counted) (hs : s.Orderly) (ht : t.Orderly)
    (hstep : s.stepUncount w = some t) :
  (s.setPointers t s.pointers.held).Counted
  := by
  obtain ⟨b, f, hpc, rfl⟩ := Workers.stepUncount_cases hstep
  apply h.stay hs ht (Workers.decrement_worker _ b)
  · cases b <;> rfl
  · cases b <;> rfl
  · simp [hpc]
  · simp
  · exact fun f => .inl (by cases b <;> rfl)
  · exact fun p hp => h.via w p (by simpa [hpc] using hp)
  · simp [hpc]

/-- It chooses its idle fiber, or leaves the loop. -/
theorem Counted.idleOrBreak (h : s.Counted) (hs : s.Orderly) {ft : Option (FiberAndThread κ)}
    (hpc : (s.worker w).pc = .dispatch ft) (ht : (s.toWorkers.idleOrBreak w).Orderly) :
  (s.setPointers (s.toWorkers.idleOrBreak w)
    ((WbServer.Action.dispatch w).pointers s.toWorkers (s.toWorkers.idleOrBreak w)
      s.pointers.held)).Counted
  := by
  unfold Workers.idleOrBreak at ht ⊢
  split at ht
  case isTrue hterm =>
    have hdrops : Drops w s.pointers.held
        (s.pointers.held.filter fun p => p.1.thread? ≠ some w) :=
      ⟨_, rfl, fun p hp => decide_eq_true hp⟩
    have hcounted := h.move hs ht rfl rfl rfl (by simp [hpc]) rfl (fun _ => .inl rfl) hdrops
      (by simp) (by simp [hpc]) (by simp)
    simpa [Action.pointers, hterm] using hcounted
  case isFalse hterm =>
    have hcounted := h.stay hs ht rfl rfl rfl (by simp [hpc]) rfl (fun _ => .inl rfl)
      (by simpa using h.idleFiber w (by simp [hpc])) (by simp [hpc])
    simpa [Action.pointers, hterm] using hcounted

/-- It binds a callback to `cb_fiber`, which may get a new fiber. -/
theorem Counted.bindCb (h : s.Counted) (hs : s.Orderly) {ft : Option (FiberAndThread κ)}
    (hpc : (s.worker w).pc = .dispatch ft) (c : Code κ) (ht : (s.toWorkers.bindCb w c).Orderly) :
  (s.setPointers (s.toWorkers.bindCb w c)
    ((WbServer.Action.dispatch w).pointers s.toWorkers (s.toWorkers.bindCb w c)
      s.pointers.held)).Counted
  := by
  obtain ⟨f, hcb, ⟨hreset, hs'⟩ | ⟨-, hs'⟩⟩ | ⟨-, hs'⟩ := Workers.bindCb_cases s.toWorkers w c <;>
    rw [hs'] at ht ⊢
  · have hmem := h.cbFiber w f (by simp [hpc]) hcb
    have hlt : f < s.next := h.exact.held f ⟨_, hmem⟩
    have hcounted := h.stay hs ht rfl rfl rfl (by simp [hpc]) rfl
      (fun g => by
        by_cases hg : g = f
        · exact .inr ⟨by simp [hg, Workers.set, Fiber.new, Fiber.State.Resettable],
            by simpa [hg] using hreset⟩
        · exact .inl (by simp [Workers.set, hg]))
      (by simpa using hmem) (by simp [hpc])
    simpa [Action.pointers, Nat.ne_of_lt hlt] using hcounted
  · have hcounted := h.fail hs (w := w) (by simp [hpc]) .reset
    simpa [Action.pointers, Workers.fail, hpc] using hcounted
  · have hidle := h.idleFiber w (by simp [hpc])
    have hcounted := h.alloc hs ht (p := .cbFiber w) rfl rfl rfl rfl rfl (by simp [hpc]) rfl
      (by simp) (by simp) (List.mem_cons_of_mem _ hidle)
    simpa [Action.pointers] using hcounted

/-- It chooses a branch. -/
theorem Counted.dispatch (h : s.Counted) (hs : s.Orderly) (ht : t.Orderly)
    (hstep : s.stepDispatch w = some t) :
  (s.setPointers t ((WbServer.Action.dispatch w).pointers s.toWorkers t s.pointers.held)).Counted
  := by
  obtain ⟨ft, hpc, hs'⟩ := Workers.stepDispatch_cases hstep
  rcases hs' with ⟨-, rfl⟩ | ⟨f, thread, rfl, -, rfl⟩ | ⟨c, thread, -, rfl⟩
  · apply h.idleOrBreak hs hpc ht
  · have hcounted := h.stay hs ht rfl rfl rfl (by simp [hpc]) rfl (fun _ => .inl rfl)
      (fun p hp => h.via w p (by simpa [hpc] using hp)) (by simp [hpc])
    simpa [Action.pointers] using hcounted
  · apply h.bindCb hs hpc c ht

variable (held) in
/-- The step of a thread into the fiber `f`, inside of it or out of it, which changes at most the
pointers to `f` on its stack. -/
theorem Counted.inside (h : s.Counted) {fb : Fiber κ} {f : FiberId} {pc : Pc κ}
    (ht : ((s.set f fb).setPc w pc).Orderly)
    (hvia : (s.worker w).pc.via w = pc.via w) (hfiber : (s.worker w).pc.fiber? = some f)
    (hpc : ∀ g ≠ f, (s.worker w).pc.executing ≠ some g)
    (hpc' : ∀ g ≠ f, pc.executing ≠ some g)
    (hheld : ∀ q : Holder × FiberId, q.2 ≠ f ∨ ¬ q.1.OnStack → (q ∈ held ↔ q ∈ s.pointers.held))
    (hqueue : ∀ g, held.count (.queue, g) = s.pointers.held.count (.queue, g))
    (hmain : (.mainFunc, f) ∈ held ↔ ((s.set f fb).setPc w pc).Started f)
    (hyield : (.yield, f) ∈ held ↔ ((s.set f fb).setPc w pc).Paused f) :
  (s.setPointers ((s.set f fb).setPc w pc) held).Counted
  := by
  have hothers : ∀ w' ≠ w, ((s.set f fb).setPc w pc).worker w' = s.worker w' :=
    fun w' hw => Workers.setPc_of_ne _ hw _
  have hself : ((s.set f fb).setPc w pc).worker w = { s.worker w with pc := pc } := by
    simp [Workers.setPc, Workers.set]
  have hin : (s.worker w).pc ≠ .outside := by
    intro hout
    simp [hout] at hfiber
  have hreached : s.Reached f := h.reached (.inl hfiber)
  have hcongr (g : FiberId) (hg : g ≠ f) := Workers.pc_or_of_others (s := s.toWorkers)
    (t := (s.set f fb).setPc w pc) hothers (hpc g hg) (by rw [Workers.setPc_self]; exact hpc' g hg)
  have hctx (g : FiberId) (hg : g ≠ f) :
      (((s.set f fb).setPc w pc).heap g).mCtx = (s.heap g).mCtx := by
    simp [Workers.setPc, Workers.set, hg]
  have hvar (p : Holder) (g : FiberId) (hp : p.thread? = some w) (hg : (p, g) ∈ s.pointers.held) :
      (p, g) ∈ held := (hheld (p, g) (.inr (not_onStack hp))).mpr hg
  apply h.step ht _ hothers
  · exact fun w' _ p g hp => (hheld (p, g) (.inr (not_onStack hp))).mpr
  · exact fun g => (hqueue g).trans (h.queue g)
  · rw [hself, ← hvia]
    rintro ⟨p, g⟩ hp
    apply hvar p g (Pc.thread?_of_via hp) (h.via w _ hp)
  · rw [hself]
    exact fun g _ hg => hvar _ g rfl (h.cbFiber w g hin hg)
  · rw [hself]
    exact fun _ => hvar _ _ rfl (h.idleFiber w hin)
  · intro g hg
    by_cases hgf : g = f
    · rw [hgf]
      apply hmain
    · rw [hheld _ (.inl hgf), h.mainFunc g hg, Workers.started_congr (hcongr g hgf) (hctx g hgf)]
  · intro g hg
    by_cases hgf : g = f
    · rw [hgf]
      apply hyield
    · rw [hheld _ (.inl hgf), h.yield g hg, Workers.paused_congr (hcongr g hgf) (hctx g hgf)]
  · constructor
    case next =>
      left
      refine ⟨rfl, fun p hp => ?_⟩
      obtain ⟨q, -, hq⟩ := hreached
      have hne : s.next ≠ f := Nat.ne_of_gt (h.exact.held f ⟨q, hq⟩)
      have hmem := (hheld (p, s.next) (.inl hne)).mp hp
      exact Nat.lt_irrefl s.next (h.exact.held _ ⟨p, hmem⟩)
    case source =>
      intro p g hp
      by_cases hgf : g = f
      · rw [hgf]
        exact .inr (.inr hreached)
      · exact .inl ((hheld (p, g) (.inl hgf)).mp hp)

/-- The code of the fiber is executed, so that it has not yielded. -/
theorem not_paused (h : t.Orderly) {b : Branch} {f : FiberId}
    (hpc : (t.worker w).pc = .inside b f) :
  ¬ t.Paused f
  := by
  rintro ⟨c, ⟨w', b', hpc'⟩ | ⟨hnone, -⟩⟩
  · obtain rfl := h.single w w' f (by simp [hpc]) (by simp [hpc'])
    cases hpc.symm.trans hpc'
  · apply hnone w
    simp [hpc]

/-- A fiber whose code is not executed has yielded, if its callback has started and not
ended. -/
theorem started_iff_paused (h : t.Orderly) {f : FiberId} (hpc : (t.worker w).pc.handled = some f)
    (hrunning : (t.worker w).pc.running = none) :
  t.Started f ↔ t.Paused f
  := by
  apply or_iff_right
  rintro ⟨w', hw'⟩
  obtain rfl := h.single w w' f hpc (Pc.handled_of_executing (Pc.executing_of_running hw'))
  cases hrunning.symm.trans hw'

/-- A fiber that a thread handles without executing it has yielded if its context says so. -/
theorem paused_iff (h : t.Orderly) {f : FiberId} (hpc : (t.worker w).pc.handled = some f)
    (hexec : (t.worker w).pc.executing = none) :
  t.Paused f ↔ ∃ c, (t.heap f).mCtx = .suspended c
  := by
  have hnone (w' : ThreadId) : (t.worker w').pc.executing ≠ some f := by
    intro hw'
    obtain rfl := h.single w w' f hpc (Pc.handled_of_executing hw')
    cases hexec.symm.trans hw'
  apply exists_congr
  intro c
  constructor
  · rintro (⟨w', b, hw'⟩ | ⟨-, hc⟩)
    · exact absurd (by simp [hw']) (hnone w')
    · exact hc
  · exact fun hc => .inr ⟨hnone, hc⟩

/-- The context that `swap_in` resumes. -/
theorem stepSwapIn_ctx {u : Workers κ} (h : u.stepSwapIn w = some t) {b : Branch} {f : FiberId}
    (hpc : (t.worker w).pc = .inside b f) :
  (u.heap f).mCtx ≠ .finished
  := by
  unfold Workers.stepSwapIn at h
  split at h
  case h_1 b' g hpc' =>
    split at h
    case h_1 =>
      obtain rfl := Option.some.inj h
      cases hpc'.symm.trans hpc
    case h_2 fb hfb =>
      obtain ⟨-, rfl⟩ := Fiber.swapIn_eq_some.mp hfb
      split at h
      case isTrue =>
        obtain rfl := Option.some.inj h
        cases hpc'.symm.trans hpc
      case isFalse hfinished =>
        obtain rfl := Option.some.inj h
        simp only [Workers.setPc_self, Pc.inside.injEq] at hpc
        obtain ⟨-, rfl⟩ := hpc
        intro hctx
        simp [hctx, Fiber.Context.isFinished] at hfinished
  case h_2 => cases h

section Stack

variable {p : Holder} {f : FiberId} {q : Holder × FiberId}

/-- A pointer to `f` on its stack comes or goes. -/
theorem mem_cons_iff_of_onStack (hp : p.OnStack) (hq : q.2 ≠ f ∨ ¬ q.1.OnStack) :
  q ∈ (p, f) :: held ↔ q ∈ held
  := by
  rw [List.mem_cons]
  apply or_iff_right
  rintro rfl
  obtain hq | hq := hq
  · exact hq rfl
  · exact hq hp

theorem mem_filter_iff_of_onStack (hp : p.OnStack) (hq : q.2 ≠ f ∨ ¬ q.1.OnStack) :
  q ∈ held.filter (· ≠ (p, f)) ↔ q ∈ held
  := by
  rw [List.mem_filter]
  apply and_iff_left
  apply decide_eq_true
  rintro rfl
  obtain hq | hq := hq
  · exact hq rfl
  · exact hq hp

/-- A pointer on a stack is none of the queue. -/
theorem count_queue_of_cons (hp : p.OnStack) (g : FiberId) :
  ((p, f) :: held).count (.queue, g) = held.count (.queue, g)
  := by
  apply List.count_cons_of_ne
  rintro ⟨⟩
  obtain hp | hp := hp <;> cases hp

theorem count_queue_of_filter (hp : p.OnStack) (g : FiberId) :
  (held.filter (· ≠ (p, f))).count (.queue, g) = held.count (.queue, g)
  := by
  apply List.count_filter
  apply decide_eq_true
  rintro ⟨⟩
  obtain hp | hp := hp <;> cases hp

end Stack

/-- The fiber is swapped in, and has a pointer to itself on its stack. -/
theorem Counted.swapIn (h : s.Counted) (hs : s.Orderly) (ht : t.Orderly)
    (hstep : s.stepSwapIn w = some t) :
  (s.setPointers t ((WbServer.Action.swapIn w).pointers s.toWorkers t s.pointers.held)).Counted
  := by
  have hctx := fun b f => stepSwapIn_ctx (b := b) (f := f) hstep
  obtain ⟨b, f, hpc, ⟨-, rfl⟩ | rfl | rfl⟩ := Workers.stepSwapIn_cases hstep
  · have hcounted := h.fail hs (w := w) (by simp [hpc]) .swapIn
    simpa [Action.pointers, Workers.fail, hpc] using hcounted
  · have hcounted := h.fail hs (w := w) (by simp [hpc]) .neverReach
    simpa [Action.pointers, Workers.fail, hpc] using hcounted
  · have hpc' : (((s.set f { s.heap f with mState := .exec }).setPc w (.inside b f)).worker w).pc =
        .inside b f := Workers.setPc_self _ _ _
    have hlt : f < s.next := by
      obtain ⟨p, -, hp⟩ := h.reached (w := w) (f := f) (.inl (by simp [hpc]))
      apply h.exact.held f ⟨p, hp⟩
    have hstarted : ((s.set f { s.heap f with mState := .exec }).setPc w (.inside b f)).Started f :=
      .inl ⟨w, by simp⟩
    have hpaused := not_paused ht hpc'
    have hbefore := paused_iff hs (w := w) (f := f) (by simp [hpc]) (by simp [hpc])
    cases hc : (s.heap f).mCtx with
    | finished => exact absurd hc (hctx b f hpc')
    | entry =>
        have hyield : (.yield, f) ∉ s.pointers.held := by
          rw [h.yield f hlt, hbefore, hc]
          simp
        have hcounted := h.inside _ ht (by simp [hpc]) (by simp [hpc]) (by simp [hpc])
          (by simp [eq_comm]) (fun q => mem_cons_iff_of_onStack (.inl rfl))
          (count_queue_of_cons (.inl rfl)) (iff_of_true List.mem_cons_self hstarted)
          (iff_of_false (by simpa using hyield) hpaused)
        simpa [Action.pointers, hc] using hcounted
    | suspended c =>
        have hmain : (.mainFunc, f) ∈ s.pointers.held :=
          (h.mainFunc f hlt).mpr (.inr (hbefore.mpr ⟨c, hc⟩))
        have hcounted := h.inside _ ht (by simp [hpc]) (by simp [hpc]) (by simp [hpc])
          (by simp [eq_comm]) (fun q => mem_filter_iff_of_onStack (.inr rfl))
          (count_queue_of_filter (.inr rfl)) (iff_of_true (by simpa using hmain) hstarted)
          (iff_of_false (by simp) hpaused)
        simpa [Action.pointers, hc] using hcounted

/-- A task ends or yields. -/
theorem Counted.leave (h : s.Counted) (hs : s.Orderly) (ht : t.Orderly) {e : Ending κ}
    (hstep : s.stepLeave w e = some t) :
  (s.setPointers t ((WbServer.Action.leave w e).pointers s.toWorkers t s.pointers.held)).Counted
  := by
  obtain ⟨b, f, hpc, rfl⟩ := Workers.stepLeave_cases hstep
  have hlt : f < s.next := by
    obtain ⟨p, -, hp⟩ := h.reached (w := w) (f := f) (.inl (by simp [hpc]))
    apply h.exact.held f ⟨p, hp⟩
  have hmain : (.mainFunc, f) ∈ s.pointers.held :=
    (h.mainFunc f hlt).mpr (.inl ⟨w, by simp [hpc]⟩)
  have hyield : (.yield, f) ∉ s.pointers.held := by
    rw [h.yield f hlt]
    exact not_paused hs hpc
  have hinside {held : List (Holder × FiberId)} := h.inside held ht
    (by simp [hpc]) (by simp [hpc]) (by simp [hpc, eq_comm]) (by simp [eq_comm])
  have hpaused (c : Code κ) (hc : (e.write (s.heap f)).2 = .suspended c) :
      ((s.set f (e.write (s.heap f)).1).setPc w
        (.leaving b f (e.write (s.heap f)).2)).Paused f :=
    ⟨c, .inl ⟨w, b, by simp [hc]⟩⟩
  have hended (hf : (e.write (s.heap f)).1.mState.Finished) :
      ¬ ((s.set f (e.write (s.heap f)).1).setPc w
        (.leaving b f (e.write (s.heap f)).2)).Started f := by
    rw [ht.started f hlt, not_not]
    simpa [Workers.setPc, Workers.set] using hf.resettable
  have hyields (c : Code κ) (hc : (e.write (s.heap f)).2 = .suspended c) :=
    hinside (fun q => mem_cons_iff_of_onStack (.inr rfl)) (count_queue_of_cons (.inr rfl))
      (iff_of_true (List.mem_cons_of_mem _ hmain) (.inr (hpaused c hc)))
      (iff_of_true List.mem_cons_self (hpaused c hc))
  have hends (hf : (e.write (s.heap f)).1.mState.Finished) :=
    hinside (fun q => mem_filter_iff_of_onStack (.inl rfl)) (count_queue_of_filter (.inl rfl))
      (iff_of_false (by simp) (hended hf))
      (iff_of_false (by simpa using hyield) fun hp => hended hf (.inr hp))
  cases e with
  | yieldToReady rest => simpa [Action.pointers, hpc] using hyields rest rfl
  | yeidToHold rest => simpa [Action.pointers, hpc] using hyields rest rfl
  | ret => simpa [Action.pointers, hpc] using hends (.inl rfl)
  | throw => simpa [Action.pointers, hpc] using hends (.inr rfl)

/-- The fiber is swapped out. -/
theorem Counted.swapOut (h : s.Counted) (hs : s.Orderly) (ht : t.Orderly)
    (hstep : s.stepSwapOut w = some t) :
  (s.setPointers t s.pointers.held).Counted
  := by
  obtain ⟨b, f, ctx, hpc, rfl⟩ := Workers.stepSwapOut_cases hstep
  have hlt : f < s.next := by
    obtain ⟨p, -, hp⟩ := h.reached (w := w) (f := f) (.inl (by simp [hpc]))
    apply h.exact.held f ⟨p, hp⟩
  have hstate : (((s.set f ((s.heap f).swapOut ctx)).setPc w (.back b f)).heap f).mState =
      (s.heap f).mState := by
    simp [Workers.setPc, Workers.set, Fiber.swapOut]
  have hstarted : ((s.set f ((s.heap f).swapOut ctx)).setPc w (.back b f)).Started f ↔
      s.Started f := by
    rw [ht.started f hlt, hs.started f hlt, hstate]
  have hbefore := started_iff_paused hs (w := w) (f := f) (by simp [hpc]) (by simp [hpc])
  have hafter := started_iff_paused ht (w := w) (f := f) (by simp) (by simp)
  apply h.inside _ ht
  · simp [hpc]
  · simp [hpc]
  · simp [hpc, eq_comm]
  · simp
  · simp
  · simp
  · rw [h.mainFunc f hlt, hstarted]
  · rw [h.yield f hlt, ← hbefore, ← hafter, hstarted]

variable (held) in
/-- A thread that is done with a fiber may give up the variable of the branch, and forgets its
callback fiber if this was in it. -/
theorem Counted.settled (h : s.Counted) (hs : s.Orderly) {b : Branch}
    (hin : (s.worker w).pc ≠ .outside) (hexec : (s.worker w).pc.executing = none)
    {u : Workers κ} (ht : (u.setPc w .head).Orderly)
    (hnext : u.next = s.next) (hfibers : u.mFibers = s.mFibers)
    (hothers : ∀ w' ≠ w, u.worker w' = s.worker w')
    (hidle : (u.worker w).idleFiber = (s.worker w).idleFiber)
    (hheap : ∀ g, (u.heap g).mCtx = (s.heap g).mCtx ∨
      (u.heap g).mState.Resettable ∧ (s.heap g).mState.Resettable)
    (hheld : held = s.pointers.held ∨ held = b.giveUp w s.pointers.held)
    (hcb : ∀ g, (u.worker w).cbFiber = some g →
      (s.worker w).cbFiber = some g ∧ (b = .cb → held = s.pointers.held)) :
  (s.setPointers (u.setPc w .head) held).Counted
  := by
  have hself : (u.setPc w .head).worker w = { u.worker w with pc := .head } := by
    simp [Workers.setPc]
  have hdrops : Drops w s.pointers.held held := by
    obtain rfl | rfl := hheld
    · apply Drops.refl
    · apply drops_giveUp
  apply h.go hs ht _ hnext hfibers _ _ hheap hdrops
  · simp
  · intro g _ hg
    rw [hself] at hg
    obtain ⟨hg, hkept⟩ := hcb g hg
    have hmem := h.cbFiber w g hin hg
    obtain rfl | rfl := hheld
    · exact hmem
    · cases b with
      | fiber => exact mem_giveUp hmem (.inr (by simp))
      | cb =>
          rw [hkept rfl]
          exact hmem
      | idle => exact mem_giveUp hmem (.inl rfl)
  · intro _
    rw [hself, hidle]
    have hmem := h.idleFiber w hin
    obtain rfl | rfl := hheld
    · exact hmem
    · cases b with
      | fiber => exact mem_giveUp hmem (.inr (by simp))
      | cb => exact mem_giveUp hmem (.inr (by simp))
      | idle => exact mem_giveUp hmem (.inl rfl)
  · intro w' hw
    rw [Workers.setPc_of_ne _ hw, hothers w' hw]
  · exact hexec
  · simp

/-- The thread looks at the state of the fiber that has come back, and gives up its variables. -/
theorem Counted.settle (h : s.Counted) (hs : s.Orderly) (ht : t.Orderly)
    (hstep : s.stepSettle w = some t) :
  (s.setPointers t ((WbServer.Action.settle w).pointers s.toWorkers t s.pointers.held)).Counted
  := by
  obtain ⟨b, f, hpc, hs'⟩ := Workers.stepSettle_cases hstep
  have hin : (s.worker w).pc ≠ .outside := by simp [hpc]
  have hexec : (s.worker w).pc.executing = none := by simp [hpc]
  have hheld (t : Workers κ) :
      (WbServer.Action.settle w).pointers s.toWorkers t s.pointers.held = s.pointers.held ∨
        (WbServer.Action.settle w).pointers s.toWorkers t s.pointers.held =
          b.giveUp w s.pointers.held := by
    simp only [Action.pointers, hpc]
    split
    · exact .inl rfl
    · exact .inr rfl
  rcases hs' with ⟨hready, rfl⟩ | ⟨hb, rfl⟩ | ⟨rfl, hfinished, rfl⟩ | ⟨rfl, -, rfl⟩
  · have hcounted := h.stay hs ht rfl rfl rfl (by simp [hpc]) rfl (fun _ => .inl rfl)
      (fun p hp => h.via w p (by simpa [hpc] using hp)) (by simp [hpc])
    simpa [Action.pointers, hpc, hready] using hcounted
  · have hhold : ∃ fb : Fiber κ, fb.mCtx = (s.heap f).mCtx ∧
        s.toWorkers.holdUnlessFinished f = s.set f fb := by
      unfold Workers.holdUnlessFinished
      split
      · exact ⟨s.heap f, rfl, by simp [Workers.set]⟩
      · exact ⟨(s.heap f).setHold, rfl, rfl⟩
    obtain ⟨fb, hfb, hu⟩ := hhold
    rw [hu] at ht ⊢
    apply h.settled _ hs hin hexec ht rfl rfl (fun _ _ => rfl) rfl _ (hheld _)
    · exact fun g hg => ⟨hg, fun hcb => absurd hcb hb⟩
    · intro g
      by_cases hg : g = f
      · exact .inl (by simpa [Workers.set, hg] using hfb)
      · exact .inl (by simp [Workers.set, hg])
  · have hcounted := h.settled s.pointers.held (b := .cb) hs hin hexec ht rfl rfl
      (fun _ _ => rfl) rfl
      (fun g => by
        by_cases hg : g = f
        · exact .inr ⟨by simp [hg, Workers.set, Fiber.new, Fiber.State.Resettable],
            by simpa [hg] using hfinished.resettable⟩
        · exact .inl (by simp [Workers.set, hg]))
      (.inl rfl) (fun g hg => ⟨hg, fun _ => rfl⟩)
    simpa [Action.pointers, hpc, hfinished] using hcounted
  · apply h.settled _ hs hin hexec ht rfl rfl (fun w' hw => Workers.setCbFiber_of_ne _ hw _) _ _
      (hheld _)
    · simp [Workers.setCbFiber]
    · simp [Workers.setCbFiber, Workers.set]
    · intro g
      by_cases hg : g = f
      · exact .inl (by simp [Workers.setCbFiber, Workers.set, hg, Fiber.setHold])
      · exact .inl (by simp [Workers.setCbFiber, Workers.set, hg])

/-! ### Calls and tasks -/

/-- The pointers of the tasks change. -/
theorem Counted.same (h : s.Counted) (hs : s.Orderly)
    (hheld : ∀ p : Holder × FiberId, p.1 ≠ .task → (p ∈ held ↔ p ∈ s.pointers.held))
    (hqueue : ∀ f, held.count (.queue, f) = s.pointers.held.count (.queue, f))
    (hsource : ∀ f, (.task, f) ∈ held → (.task, f) ∈ s.pointers.held ∨ s.Reached f) :
  (s.setPointers s.toWorkers held).Counted
  := by
  have hvar (p : Holder) (f : FiberId) (w : ThreadId) (hp : p.thread? = some w)
      (hmem : (p, f) ∈ s.pointers.held) : (p, f) ∈ held := by
    apply (hheld (p, f) _).mpr hmem
    rintro rfl
    cases hp
  have hsource' : ∀ p f, (p, f) ∈ held → (p, f) ∈ s.pointers.held ∨ s.Reached f := by
    intro p f hp
    by_cases htask : p = .task
    · exact htask ▸ hsource f (htask ▸ hp)
    · exact .inl ((hheld (p, f) htask).mp hp)
  -- no thread moves, so that any may stand for the caller
  apply h.step (w := 0) hs _ (fun _ _ => rfl)
  · exact fun w' _ p f hp => hvar p f w' hp
  · exact fun f => (hqueue f).trans (h.queue f)
  · rintro ⟨p, f⟩ hp
    exact hvar p f 0 (Pc.thread?_of_via hp) (h.via 0 _ hp)
  · exact fun f hpc hf => hvar _ f 0 rfl (h.cbFiber 0 f hpc hf)
  · exact fun hpc => hvar _ _ 0 rfl (h.idleFiber 0 hpc)
  · intro f hf
    rw [hheld _ (by simp), h.mainFunc f hf]
  · intro f hf
    rw [hheld _ (by simp), h.yield f hf]
  · constructor
    case next =>
      left
      refine ⟨rfl, fun p hp => ?_⟩
      obtain hp | ⟨q, -, hq⟩ := hsource' p _ hp
      · exact Nat.lt_irrefl s.next (h.exact.held _ ⟨p, hp⟩)
      · exact Nat.lt_irrefl s.next (h.exact.held _ ⟨q, hq⟩)
    case source => exact fun p f hp => (hsource' p f hp).imp_right .inr

/-- Nothing happens to the pointers. -/
theorem Counted.refl (h : s.Counted) (hs : s.Orderly) :
  (s.setPointers s.toWorkers s.pointers.held).Counted
  := h.same hs (fun _ _ => Iff.rfl) (fun _ => rfl) fun _ hf => .inl hf

/-- A pointer is copied into a variable of a task. -/
theorem Counted.take (h : s.Counted) (hs : s.Orderly) {f : FiberId} (hf : s.Reached f) :
  (s.setPointers s.toWorkers ((.task, f) :: s.pointers.held)).Counted
  := by
  apply h.same hs
  · intro p hp
    rw [List.mem_cons]
    apply or_iff_right
    rintro rfl
    exact hp rfl
  · intro g
    rw [List.count_cons_of_ne (by simp)]
  · intro g hg
    obtain heq | hg := List.mem_cons.mp hg
    · rw [(Prod.mk.inj heq).2]
      exact .inr hf
    · exact .inl hg

/-- A task gives up a pointer. -/
theorem Counted.drop (h : s.Counted) (hs : s.Orderly) (f : FiberId) :
  (s.setPointers s.toWorkers (s.pointers.held.erase (.task, f))).Counted
  := by
  apply h.same hs
  · intro p hp
    apply List.mem_erase_of_ne
    rintro rfl
    exact hp rfl
  · intro g
    rw [List.count_erase_of_ne (by simp)]
  · exact fun g hg => .inl (List.mem_of_mem_erase hg)

/-- An entry is added to the queue, with a pointer to its fiber. -/
theorem Counted.enqueue (h : s.Counted) (hcounted : (s.setPointers t held).Counted) {f : FiberId}
    (hreached : s.Reached f) (hf : f < t.next) (thread : ℤ) :
  (s.setPointers { t with toScheduler := t.toScheduler.scheduler (some (.fiber f)) thread }
    ((.queue, f) :: held)).Counted
  := by
  have hfibers : (t.toScheduler.scheduler (some (.fiber f)) thread).mFibers =
      t.mFibers ++ [⟨.fiber f, thread⟩] := by
    simp [Scheduler.scheduler, Scheduler.schedulerNolock, Task.NonNull, hf]
  have hne (p : Holder × FiberId) (hp : p.1 ≠ .queue) : p ∈ (.queue, f) :: held ↔ p ∈ held := by
    rw [List.mem_cons]
    apply or_iff_right
    rintro rfl
    exact hp rfl
  constructor
  case exact =>
    obtain ⟨q, -, hq⟩ := hreached
    apply h.exact.add hcounted.exact ⟨q, hq⟩ hf
  case queue =>
    intro g
    have hqueue : held.count (.queue, g) = (t.mFibers.filterMap FiberAndThread.fiber?).count g :=
      hcounted.queue g
    simp only [setPointers, Pointers.held_update, hfibers, List.filterMap_append,
      List.count_append, List.count_cons, hqueue]
    by_cases hg : f = g
    · simp [FiberAndThread.fiber?, hg]
    · simp [FiberAndThread.fiber?, hg]
  case via => exact fun w p hp => List.mem_cons_of_mem _ (hcounted.via w p hp)
  case cbFiber => exact fun w g hpc hg => List.mem_cons_of_mem _ (hcounted.cbFiber w g hpc hg)
  case idleFiber => exact fun w hpc => List.mem_cons_of_mem _ (hcounted.idleFiber w hpc)
  case mainFunc => exact fun g hg => (hne _ (by simp)).trans (hcounted.mainFunc g hg)
  case yield => exact fun g hg => (hne _ (by simp)).trans (hcounted.yield g hg)
  case destructor =>
    have hnone := hcounted.destructor
    simp only [setPointers, List.any_eq_false, decide_eq_true_eq, not_not] at hnone ⊢
    intro g hg
    obtain ⟨howned, hlost⟩ := Pointers.mem_lost.mp hg
    apply hnone g (Pointers.mem_lost.mpr ⟨howned, fun p hp => hlost p (List.mem_cons_of_mem _ hp)⟩)

/-- A task constructs a fiber. -/
theorem Counted.newFiber (h : s.Counted) (hs : s.Orderly) {cb : Option (Code κ)}
    (ht : Workers.Orderly { s.toWorkers with
      toScheduler := s.toScheduler.call (.newFiber cb) }) :
  (s.setPointers { s.toWorkers with toScheduler := s.toScheduler.call (.newFiber cb) }
    ((.task, s.next) :: s.pointers.held)).Counted
  := by
  have hmem (p : Holder × FiberId) (hp : p.1 ≠ .task) :
      p ∈ (.task, s.next) :: s.pointers.held ↔ p ∈ s.pointers.held := by
    rw [List.mem_cons]
    apply or_iff_right
    rintro rfl
    exact hp rfl
  have hstack := h.stack ((.task, s.next) :: s.pointers.held) hs ht
    (fun f w => .inl rfl)
    (fun f hf => by
      by_cases hf' : f = s.next
      · exact .inr ⟨by simp [Scheduler.call, hf', Fiber.new, Fiber.State.Resettable], by simp [hf']⟩
      · exact .inl ⟨Nat.lt_of_le_of_ne (Nat.le_of_lt_succ hf) hf', by
          simp [Scheduler.call, hf']⟩)
    (fun f => hmem _ (by simp)) (fun f => hmem _ (by simp))
  apply h.step (w := 0) ht _ (fun _ _ => rfl) _ _ _ _ _ hstack.1 hstack.2
  · constructor
    case next => exact .inr ⟨rfl, .task, by simp⟩
    case source =>
      intro p f hp
      obtain heq | hp := List.mem_cons.mp hp
      · exact .inr (.inl (Prod.mk.inj heq).2)
      · exact .inl hp
  · exact fun _ _ p f _ hp => List.mem_cons_of_mem _ hp
  · intro f
    rw [List.count_cons_of_ne (by simp)]
    apply h.queue f
  · exact fun p hp => List.mem_cons_of_mem _ (h.via 0 p hp)
  · exact fun f hpc hf => List.mem_cons_of_mem _ (h.cbFiber 0 f hpc hf)
  · exact fun hpc => List.mem_cons_of_mem _ (h.idleFiber 0 hpc)

/-- A call of code that may be executed in a fiber. -/
theorem Counted.call (h : s.Counted) (hs : s.Orderly) {c : Call κ} {running : Option FiberId}
    (hpasses : c.Passes s.next s.pointers.held running)
    (hrunning : ∀ f, running = some f → s.Reached f)
    (ht : Workers.Orderly { s.toWorkers with toScheduler := s.toScheduler.call c }) :
  (s.setPointers { s.toWorkers with toScheduler := s.toScheduler.call c }
    (c.pointers s.next s.pointers.held)).Counted
  := by
  have hrefl := h.refl hs
  match c with
  | .newFiber cb => apply h.newFiber hs ht
  | .scheduler none thread => exact { hrefl with }
  | .scheduler (some (.cb c)) thread =>
      exact { hrefl with
        queue := fun f => (hrefl.queue f).trans (by
          simp [setPointers, Scheduler.call, Scheduler.scheduler, Scheduler.schedulerNolock,
            Task.NonNull, FiberAndThread.fiber?, List.filterMap_cons]) }
  | .scheduler (some (.fiber f)) thread =>
      by_cases hf : f < s.next
      · have hreached : s.Reached f := by
          obtain htask | hrun := hpasses hf
          · exact ⟨.task, by simp [Holder.OnStack], htask⟩
          · exact hrunning f hrun
        simpa [Call.pointers, hf, Scheduler.call] using h.enqueue hrefl hreached hf thread
      · have hcall : s.toScheduler.call (.scheduler (some (.fiber f)) thread) = s.toScheduler := by
          simp [Scheduler.call, Scheduler.scheduler, Scheduler.schedulerNolock, Task.NonNull, hf]
        simpa [Call.pointers, hf, hcall] using hrefl

/-- A fiber that is ready again is given back to the queue. -/
theorem Counted.requeue (h : s.Counted) (hs : s.Orderly) (ht : t.Orderly)
    (hstep : s.stepRequeue w = some t) :
  (s.setPointers t ((WbServer.Action.requeue w).pointers s.toWorkers t s.pointers.held)).Counted
  := by
  obtain ⟨b, f, u, hpc, rfl, hs'⟩ := Workers.stepRequeue_cases hstep
  have hin : (s.worker w).pc ≠ .outside := by simp [hpc]
  have hexec : (s.worker w).pc.executing = none := by simp [hpc]
  have hreached : s.Reached f := h.reached (w := w) (.inl (by simp [hpc]))
  have hlt : f < s.next := by
    obtain ⟨p, -, hp⟩ := hreached
    apply h.exact.held f ⟨p, hp⟩
  have hheld (t : Workers κ) : (WbServer.Action.requeue w).pointers s.toWorkers t s.pointers.held =
      (.queue, f) :: b.giveUp w s.pointers.held := by
    simp [Action.pointers, hpc]
  rw [hheld]
  rcases hs' with ⟨rfl, rfl⟩ | ⟨hb, rfl⟩
  · have ht' : ((s.toWorkers.setCbFiber w none).setPc w .head).Orderly :=
      ⟨ht.single, ht.ended, ht.started⟩
    have hcounted := h.settled (Branch.cb.giveUp w s.pointers.held) hs hin hexec ht' rfl rfl
      (fun w' hw => Workers.setCbFiber_of_ne _ hw _) (by simp [Workers.setCbFiber])
      (fun _ => .inl rfl) (.inr rfl) (by simp [Workers.setCbFiber])
    exact h.enqueue hcounted hreached hlt (-1)
  · have ht' : (s.toWorkers.setPc w .head).Orderly := ⟨ht.single, ht.ended, ht.started⟩
    have hcounted := h.settled (b.giveUp w s.pointers.held) hs hin hexec ht' rfl rfl
      (fun _ _ => rfl) rfl (fun _ => .inl rfl) (.inr rfl)
      (fun g hg => ⟨hg, fun hcb => absurd hcb hb⟩)
    exact h.enqueue hcounted hreached hlt (-1)

/-- The invariants of the scheduler, its threads and the pointers. -/
structure Inv (s : Lifetimes κ) : Prop where
  claimed : s.Claimed
  orderly : s.Orderly
  counted : s.Counted

/-- Every step keeps the accounts. -/
theorem Counted.act (h : s.Counted) (hs : s.Orderly) (ht : t.Orderly) {a : WbServer.Action κ}
    (hpasses : a.Passes s.toWorkers s.pointers.held) (hact : Workers.act a s.toWorkers = some t) :
  (s.setPointers t (a.pointers s.toWorkers t s.pointers.held)).Counted
  := by
  cases a with
  | run w => apply h.run hs ht hact
  | scan w => apply h.scan hs ht hact
  | dispatch w => apply h.dispatch hs ht hact
  | count w => apply h.count hs ht hact
  | swapIn w => apply h.swapIn hs ht hact
  | call w c =>
      obtain ⟨⟨b, f, hpc⟩, rfl⟩ := Workers.stepCall_cases hact
      apply h.call hs hpasses _ ht
      exact fun g hg => h.reached (.inl (Pc.fiber?_of_chosen (Pc.chosen_of_running hg)))
  | leave w e => apply h.leave hs ht hact
  | swapOut w => apply h.swapOut hs ht hact
  | uncount w => apply h.uncount hs ht hact
  | settle w => apply h.settle hs ht hact
  | requeue w => apply h.requeue hs ht hact
  | schedule c =>
      obtain rfl := Option.some.inj hact
      apply h.call hs hpasses _ ht
      exact fun g hg => by cases hg
  | setStoping b =>
      obtain rfl := Option.some.inj hact
      exact { h.refl hs with }
  | setAutoStop b =>
      obtain rfl := Option.some.inj hact
      exact { h.refl hs with }

/-- A step is one of the scheduler and its threads, or a task copies or drops a pointer. -/
theorem step_cases {a : Action κ} {s' : Lifetimes κ} (h : step a s = some s') :
  (∃ b t, a = .scheduler b ∧ b.Passes s.toWorkers s.pointers.held ∧
      Workers.act b s.toWorkers = some t ∧
      s' = s.setPointers t (b.pointers s.toWorkers t s.pointers.held)) ∨
    (∃ f, ((.task, f) ∈ s.pointers.held ∨ ∃ w, (s.worker w).pc.running = some f) ∧
      s' = s.setPointers s.toWorkers ((.task, f) :: s.pointers.held)) ∨
    ∃ f, s' = s.setPointers s.toWorkers (s.pointers.held.erase (.task, f))
  := by
  unfold step at h
  split at h
  case isTrue => cases h
  case isFalse =>
    cases a with
    | scheduler b =>
        simp only [Lifetimes.act] at h
        split at h
        case isTrue hpasses =>
          obtain ⟨t, ht, rfl⟩ := Option.map_eq_some_iff.mp h
          unfold Workers.step at ht
          split at ht
          · cases ht
          · exact .inl ⟨b, t, rfl, hpasses, ht, rfl⟩
        case isFalse => cases h
    | copy f =>
        simp only [Lifetimes.act] at h
        split at h
        case isTrue hmem => exact .inr (.inl ⟨f, .inl hmem, (Option.some.inj h).symm⟩)
        case isFalse => cases h
    | getThis w =>
        simp only [Lifetimes.act] at h
        split at h
        case h_1 b f hpc =>
          split at h
          · cases h
          · exact .inr (.inl ⟨f, .inr ⟨w, by simp [hpc]⟩, (Option.some.inj h).symm⟩)
        case h_2 => cases h
    | drop f =>
        simp only [Lifetimes.act] at h
        split at h
        case isTrue => exact .inr (.inr ⟨f, (Option.some.inj h).symm⟩)
        case isFalse => cases h

/-- A running task reaches its own fiber. -/
theorem Counted.reached_of_running (h : s.Counted) {f : FiberId}
    (hf : (.task, f) ∈ s.pointers.held ∨ ∃ w, (s.worker w).pc.running = some f) :
  s.Reached f
  := by
  obtain htask | ⟨w, hw⟩ := hf
  · exact ⟨.task, by simp [Holder.OnStack], htask⟩
  · exact h.reached (.inl (Pc.fiber?_of_chosen (Pc.chosen_of_running hw)))

/-- A step that chooses a fiber that is not handled. -/
theorem Inv.step (h : s.Inv) {a : Action κ} {s' : Lifetimes κ} (hok : Unhandled a s)
    (hstep : step a s = some s') :
  s'.Inv
  := by
  obtain ⟨b, t, rfl, hpasses, hact, rfl⟩ | ⟨f, hf, rfl⟩ | ⟨f, rfl⟩ := step_cases hstep
  · have hunhandled := hok b rfl
    have horderly := h.orderly.act h.claimed hunhandled hact
    exact ⟨h.claimed.act hunhandled.choosesFree hact, horderly,
      h.counted.act h.orderly horderly hpasses hact⟩
  · exact ⟨h.claimed, h.orderly, h.counted.take h.orderly (h.counted.reached_of_running hf)⟩
  · exact ⟨h.claimed, h.orderly, h.counted.drop h.orderly f⟩

/-- At first there are no pointers. -/
theorem Initial.inv (h : s.Initial) :
  s.Inv
  := by
  have hclaimed : s.Claimed := Workers.reaches_claimed (.init h.workers)
  have hlt (f : FiberId) : ¬ f < s.next := by
    rw [h.next]
    apply Nat.not_lt_zero
  have hpc := h.workers.outside
  refine ⟨hclaimed, ?_, ?_⟩
  · constructor
    case single => simp [hpc]
    case ended => simp [hpc]
    case started => exact fun f hf => absurd hf (hlt f)
  · constructor
    case exact =>
      rw [h.pointers]
      simpa [hlt] using Pointers.exact_new
    case queue =>
      intro f
      rw [h.pointers, eq_comm]
      apply List.count_eq_zero_of_not_mem
      intro hf
      obtain ⟨ft, hft, hfiber⟩ := List.mem_filterMap.mp hf
      obtain ⟨task, thread⟩ := ft
      cases task with
      | fiber g => exact hlt g (h.workers.valid _ hft)
      | cb c => cases hfiber
    case via => simp [hpc]
    case cbFiber => simp [hpc]
    case idleFiber => simp [hpc]
    case mainFunc => exact fun f hf => absurd hf (hlt f)
    case yield => exact fun f hf => absurd hf (hlt f)
    case destructor => exact h.destructor

/-- In every state that is reached under the condition. -/
theorem reaches_inv (h : (system κ).Reaches Unhandled s) :
  s.Inv
  := by
  apply h.invariant
  · exact fun s hs => hs.inv
  · exact fun a s s' hs hok hstep => hs.step hok hstep

/-! ### Destroyed fibers -/

/-- As long as no thread chooses a fiber that another thread handles, no destructor finds a fiber
that is not `INIT`, `TERM` or `EXCEPT`; a fiber is destroyed once, and exactly when no pointer is
left; and then no thread refers to it, the queue does not hold it, and its callback has not
started or has ended. -/
theorem destroyed_unused (h : (system κ).Reaches Unhandled s) :
  s.destructorFailed = false ∧ s.pointers.freed.Nodup ∧
    (∀ f < s.next, f ∈ s.pointers.freed ↔ ¬ s.pointers.Owned f) ∧
    ∀ f ∈ s.pointers.freed, (∀ w, ¬ s.Refers w f) ∧
      (∀ thread, ⟨.fiber f, thread⟩ ∉ s.mFibers) ∧ ¬ s.Started f
  := by
  have hcounted := (reaches_inv h).counted
  refine ⟨hcounted.destructor, hcounted.exact.once, ?_, ?_⟩
  · intro f hf
    rw [hcounted.exact.place f hf, not_not]
  · intro f hfreed
    have hnone (p : Holder) (hp : (p, f) ∈ s.pointers.held) : False :=
      hcounted.exact.notMem_freed hp hfreed
    refine ⟨fun w hw => ?_, fun thread hqueue => ?_, fun hstarted => ?_⟩
    · obtain ⟨p, -, hp⟩ := hcounted.reached hw
      exact hnone p hp
    · exact hnone _ (hcounted.queued hqueue)
    · exact hnone _ ((hcounted.mainFunc f (hcounted.exact.freed f hfreed)).mpr hstarted)

/-! ### Abandoned fibers -/

/-- The fiber has not been destroyed, but only pointers on its own stack lead to it. -/
structure Abandoned (s : Lifetimes κ) (f : FiberId) : Prop where
  below : f < s.next
  notFreed : f ∉ s.pointers.freed
  onStack : ∀ p, (p, f) ∈ s.pointers.held → p.OnStack

theorem Abandoned.not_reached {f : FiberId} (h : s.Abandoned f) :
  ¬ s.Reached f
  := fun ⟨p, hp, hmem⟩ => hp (h.onStack p hmem)

/-- A pointer is added to a fiber that is reached. -/
theorem mem_cons_reached {p q : Holder} {f g : FiberId} (hg : s.Reached g)
    (hp : (p, f) ∈ (q, g) :: s.pointers.held) :
  (p, f) ∈ s.pointers.held ∨ f = s.next ∨ s.Reached f
  := by
  obtain heq | hp := List.mem_cons.mp hp
  · rw [(Prod.mk.inj heq).2]
    exact .inr (.inr hg)
  · exact .inl hp

/-- A pointer is added to a fiber that is constructed. -/
theorem mem_cons_next {p q : Holder} {f : FiberId}
    (hp : (p, f) ∈ (q, s.next) :: s.pointers.held) :
  (p, f) ∈ s.pointers.held ∨ f = s.next ∨ s.Reached f
  := by
  obtain heq | hp := List.mem_cons.mp hp
  · exact .inr (.inl (Prod.mk.inj heq).2)
  · exact .inl hp

/-- What a task can reach by a call: what it has had, what it constructs, and what is reached
anyway. -/
theorem mem_call {c : Call κ} {running : Option FiberId} {p : Holder} {f : FiberId}
    (hpasses : c.Passes s.next s.pointers.held running)
    (hrunning : ∀ g, running = some g → s.Reached g)
    (hp : (p, f) ∈ c.pointers s.next s.pointers.held) :
  (p, f) ∈ s.pointers.held ∨ f = s.next ∨ s.Reached f
  := by
  match c with
  | .newFiber cb => exact mem_cons_next hp
  | .scheduler none thread => exact .inl hp
  | .scheduler (some (.cb c)) thread => exact .inl hp
  | .scheduler (some (.fiber g)) thread =>
      simp only [Call.pointers] at hp
      split at hp
      case isTrue hg =>
        apply mem_cons_reached _ hp
        obtain htask | hrun := hpasses hg
        · exact ⟨.task, by simp [Holder.OnStack], htask⟩
        · exact hrunning g hrun
      case isFalse => exact .inl hp

theorem mem_of_giveUp {b : Branch} {q : Holder × FiberId} (h : q ∈ b.giveUp w held) :
  q ∈ held
  := (drops_giveUp b).mem h

/-- A step adds pointers to fibers only that are reached or have just been constructed. -/
theorem Counted.mem_pointers (h : s.Counted) {a : WbServer.Action κ}
    (hpasses : a.Passes s.toWorkers s.pointers.held) (hact : Workers.act a s.toWorkers = some t)
    {p : Holder} {f : FiberId} (hp : (p, f) ∈ a.pointers s.toWorkers t s.pointers.held) :
  (p, f) ∈ s.pointers.held ∨ f = s.next ∨ s.Reached f
  := by
  cases a with
  | run w => exact mem_cons_next hp
  | scan w =>
      obtain ⟨-, ⟨-, rfl⟩ | ⟨⟨task, thread⟩, rest, hscan, rfl⟩⟩ := Workers.stepScan_cases hact
      · have hp' : (p, f) ∈ (Holder.ft w).reset s.pointers.held := by
          simpa [Action.pointers] using hp
        exact .inl (Holder.mem_reset.mp hp').1
      · cases task with
        | cb c =>
            have hp' : (p, f) ∈ (Holder.ft w).reset s.pointers.held := by
              simpa [Action.pointers] using hp
            exact .inl (Holder.mem_reset.mp hp').1
        | fiber g =>
            simp only [Action.pointers, Workers.setPc_self] at hp
            obtain heq | hp := List.mem_cons.mp hp
            · obtain ⟨-, rfl⟩ := Prod.mk.inj heq
              obtain ⟨pre, post, hfibers, -⟩ := scan_eq_some hscan
              have hentry : ⟨.fiber f, thread⟩ ∈ s.mFibers := by simp [hfibers]
              exact .inr (.inr ⟨.queue, by simp [Holder.OnStack], h.queued hentry⟩)
            · exact .inl (Holder.mem_reset.mp (List.mem_of_mem_erase hp)).1
  | dispatch w =>
      simp only [Action.pointers] at hp
      split at hp
      · exact .inl (List.mem_of_mem_filter hp)
      · split at hp
        case isTrue hg =>
          rw [hg] at hp
          exact mem_cons_next hp
        case isFalse => exact .inl hp
      · exact .inl hp
  | swapIn w =>
      obtain ⟨b, g, hpc, hs'⟩ := Workers.stepSwapIn_cases hact
      have hreached : s.Reached g := h.reached (w := w) (.inl (by simp [hpc]))
      rcases hs' with ⟨-, rfl⟩ | rfl | rfl
      · simp only [Action.pointers, Workers.fail, hpc] at hp
        exact .inl hp
      · simp only [Action.pointers, Workers.fail, hpc] at hp
        exact .inl hp
      · simp only [Action.pointers, Workers.setPc_self] at hp
        split at hp
        · exact mem_cons_reached hreached hp
        · exact .inl (List.mem_of_mem_filter hp)
        · exact .inl hp
  | call w c =>
      apply mem_call hpasses _ hp
      exact fun g hg => h.reached (.inl (Pc.fiber?_of_chosen (Pc.chosen_of_running hg)))
  | leave w e =>
      simp only [Action.pointers] at hp
      split at hp
      case h_1 b g hpc =>
        have hreached : s.Reached g := h.reached (w := w) (.inl (by simp [hpc]))
        cases e with
        | yieldToReady rest => exact mem_cons_reached hreached hp
        | yeidToHold rest => exact mem_cons_reached hreached hp
        | ret => exact .inl (List.mem_of_mem_filter hp)
        | throw => exact .inl (List.mem_of_mem_filter hp)
      case h_2 => exact .inl hp
  | settle w =>
      simp only [Action.pointers] at hp
      split at hp
      · split at hp
        · exact .inl hp
        · exact .inl (mem_of_giveUp hp)
      · exact .inl hp
  | requeue w =>
      simp only [Action.pointers] at hp
      split at hp
      case h_1 b g hpc =>
        obtain heq | hp := List.mem_cons.mp hp
        · obtain ⟨-, rfl⟩ := Prod.mk.inj heq
          exact .inr (.inr (h.reached (w := w) (.inl (by simp [hpc]))))
        · exact .inl (mem_of_giveUp hp)
      case h_2 => exact .inl hp
  | schedule c => exact mem_call hpasses (fun g hg => by cases hg) hp
  | count w => exact .inl hp
  | swapOut w => exact .inl hp
  | uncount w => exact .inl hp
  | setStoping b => exact .inl hp
  | setAutoStop b => exact .inl hp

/-- A step changes only fibers that a thread refers to. -/
theorem heap_eq {a : WbServer.Action κ} (hact : Workers.act a s.toWorkers = some t)
    {f : FiberId} (hf : f < s.next) (hrefers : ∀ w, ¬ s.Refers w f) :
  t.heap f = s.heap f
  := by
  have hnew (cb : Option (Code κ)) :
      Function.update s.heap s.next (Fiber.new cb) f = s.heap f :=
    Function.update_of_ne (Nat.ne_of_lt hf) _ _
  have hset {w : ThreadId} {g : FiberId} (hg : (s.worker w).pc.fiber? = some g) (fb : Fiber κ) :
      Function.update s.heap g fb f = s.heap f := by
    apply Function.update_of_ne
    rintro rfl
    exact hrefers w (.inl hg)
  cases a with
  | run w =>
      obtain ⟨-, rfl⟩ := Workers.stepRun_cases hact
      apply hnew
  | scan w => obtain ⟨-, ⟨-, rfl⟩ | ⟨ft, rest, -, rfl⟩⟩ := Workers.stepScan_cases hact <;> rfl
  | dispatch w =>
      obtain ⟨ft, hpc, hs'⟩ := Workers.stepDispatch_cases hact
      rcases hs' with ⟨-, rfl⟩ | ⟨g, thread, rfl, -, rfl⟩ | ⟨c, thread, rfl, rfl⟩
      · unfold Workers.idleOrBreak
        split <;> rfl
      · rfl
      · obtain ⟨g, hcb, ⟨-, hs'⟩ | ⟨-, hs'⟩⟩ | ⟨-, hs'⟩ := Workers.bindCb_cases s.toWorkers w c <;>
          rw [hs']
        · apply Function.update_of_ne
          rintro rfl
          exact hrefers w (.inr ⟨by simp [hpc], .inl hcb⟩)
        · rfl
        · apply hnew
  | count w =>
      obtain ⟨b, g, hpc, rfl⟩ := Workers.stepCount_cases hact
      exact congrFun (Workers.increment_heap _ b) f
  | swapIn w =>
      obtain ⟨b, g, hpc, ⟨-, rfl⟩ | rfl | rfl⟩ := Workers.stepSwapIn_cases hact
      · rfl
      · rfl
      · apply hset (w := w) (by simp [hpc])
  | call w c =>
      obtain ⟨-, rfl⟩ := Workers.stepCall_cases hact
      cases c with
      | scheduler fc thread => rfl
      | newFiber cb => apply hnew
  | leave w e =>
      obtain ⟨b, g, hpc, rfl⟩ := Workers.stepLeave_cases hact
      apply hset (w := w) (by simp [hpc])
  | swapOut w =>
      obtain ⟨b, g, ctx, hpc, rfl⟩ := Workers.stepSwapOut_cases hact
      apply hset (w := w) (by simp [hpc])
  | uncount w =>
      obtain ⟨b, g, hpc, rfl⟩ := Workers.stepUncount_cases hact
      cases b <;> rfl
  | settle w =>
      obtain ⟨b, g, hpc, hs'⟩ := Workers.stepSettle_cases hact
      rcases hs' with ⟨-, rfl⟩ | ⟨-, rfl⟩ | ⟨-, -, rfl⟩ | ⟨-, -, rfl⟩
      · rfl
      · unfold Workers.holdUnlessFinished
        split
        · rfl
        · apply hset (w := w) (by simp [hpc])
      · apply hset (w := w) (by simp [hpc])
      · apply hset (w := w) (by simp [hpc])
  | requeue w =>
      obtain ⟨b, g, u, hpc, rfl, ⟨-, rfl⟩ | ⟨-, rfl⟩⟩ := Workers.stepRequeue_cases hact <;> rfl
  | schedule c =>
      obtain rfl := Option.some.inj hact
      cases c with
      | scheduler fc thread => rfl
      | newFiber cb => apply hnew
  | setStoping b =>
      obtain rfl := Option.some.inj hact
      rfl
  | setAutoStop b =>
      obtain rfl := Option.some.inj hact
      rfl

/-- A fiber that is only on its own stack has started. -/
theorem Inv.started_of_abandoned (h : s.Inv) {f : FiberId} (ha : s.Abandoned f) :
  s.Started f
  := by
  obtain ⟨p, hp⟩ := (h.counted.exact.place f ha.below).mpr ha.notFreed
  obtain rfl | rfl := ha.onStack p hp
  · exact (h.counted.mainFunc f ha.below).mp hp
  · exact .inr ((h.counted.yield f ha.below).mp hp)

/-- No step reaches or changes a fiber that is abandoned. -/
theorem Inv.abandoned_step (h : s.Inv) {f : FiberId} (ha : s.Abandoned f) {a : Action κ}
    {s' : Lifetimes κ} (hok : Unhandled a s) (hstep : Lifetimes.step a s = some s') :
  s'.Abandoned f ∧ s'.heap f = s.heap f
  := by
  have hinv := h.step hok hstep
  have hsteps : f < s'.next ∧ s'.heap f = s.heap f ∧
      ∀ p, (p, f) ∈ s'.pointers.held → (p, f) ∈ s.pointers.held := by
    obtain ⟨b, t, -, hpasses, hact, rfl⟩ | ⟨g, hg, rfl⟩ | ⟨g, rfl⟩ := step_cases hstep
    · have hrefers (w : ThreadId) (hw : s.Refers w f) : False :=
        ha.not_reached (h.counted.reached hw)
      refine ⟨?_, heap_eq hact ha.below hrefers, ?_⟩
      · exact h.counted.exact.made_of_update hinv.counted.exact ha.below
      · intro p hp
        obtain hp | hnext | hreached := h.counted.mem_pointers hpasses hact hp
        · exact hp
        · exact absurd hnext (Nat.ne_of_lt ha.below)
        · exact absurd hreached ha.not_reached
    · refine ⟨ha.below, rfl, fun p hp => ?_⟩
      obtain heq | hp := List.mem_cons.mp hp
      · obtain ⟨-, rfl⟩ := Prod.mk.inj heq
        exact absurd (h.counted.reached_of_running hg) ha.not_reached
      · exact hp
    · exact ⟨ha.below, rfl, fun p hp => List.mem_of_mem_erase hp⟩
  obtain ⟨hlt, hheap, hheld⟩ := hsteps
  have hstarted : s'.Started f := by
    rw [hinv.orderly.started f hlt, hheap, ← h.orderly.started f ha.below]
    apply h.started_of_abandoned ha
  have hmem := (hinv.counted.mainFunc f hlt).mpr hstarted
  exact ⟨⟨hlt, hinv.counted.exact.notMem_freed hmem, fun p hp => ha.onStack p (hheld p hp)⟩, hheap⟩

/-- No thread refers to a fiber that is abandoned. -/
theorem Inv.refers_of_abandoned (h : s.Inv) {f : FiberId} (ha : s.Abandoned f) (w : ThreadId) :
  ¬ s.Refers w f
  := fun hw => ha.not_reached (h.counted.reached hw)

/-- A fiber that only its own stack owns has yielded. -/
theorem Inv.suspended_of_abandoned (h : s.Inv) {f : FiberId} (ha : s.Abandoned f) :
  ∃ c, (s.heap f).mCtx = .suspended c
  := by
  have hnone (w : ThreadId) (hw : (s.worker w).pc.fiber? = some f) : False :=
    h.refers_of_abandoned ha w (.inl hw)
  obtain ⟨w, hw⟩ | ⟨c, ⟨w, b, hw⟩ | ⟨-, hc⟩⟩ := h.started_of_abandoned ha
  · exact (hnone w (Pc.fiber?_of_chosen (Pc.chosen_of_running hw))).elim
  · exact (hnone w (by simp [hw])).elim
  · exact ⟨c, hc⟩

/-- The steps of a run leave an abandoned fiber as it is. -/
theorem Inv.abandoned_exec (h : s.Inv) {f : FiberId} (ha : s.Abandoned f)
    (ls : List (Action κ)) {s' : Lifetimes κ} (hmeets : (system κ).Meets Unhandled ls s)
    (hexec : (system κ).exec ls s = some s') :
  s'.Inv ∧ s'.Abandoned f ∧ s'.heap f = s.heap f
  := by
  induction ls generalizing s with
  | nil =>
      obtain rfl : s = s' := by simpa [Transition.System.exec] using hexec
      exact ⟨h, ha, rfl⟩
  | cons l ls ih =>
      obtain ⟨t, ht, hexec⟩ := Option.bind_eq_some_iff.mp hexec
      obtain ⟨hl, hls⟩ := hmeets
      obtain ⟨hat, hheap⟩ := h.abandoned_step ha hl ht
      obtain ⟨hinv, ha', hheap'⟩ := ih (h.step hl ht) hat (hls t ht) hexec
      exact ⟨hinv, ha', hheap'.trans hheap⟩

/-- A fiber that nothing but its own stack owns has yielded, and as long as no thread chooses a
fiber that another thread handles, it stays so for ever: whatever the threads do, its callback is
not resumed, no thread refers to it again, and it is not destroyed. -/
theorem abandoned_stays (h : (system κ).Reaches Unhandled s) {f : FiberId}
    (ha : s.Abandoned f) :
  (∃ c, (s.heap f).mCtx = .suspended c) ∧
    ∀ ls s', (system κ).Meets Unhandled ls s → (system κ).exec ls s = some s' →
      s'.Abandoned f ∧ s'.heap f = s.heap f ∧ ∀ w, ¬ s'.Refers w f
  := by
  have hinv := reaches_inv h
  use hinv.suspended_of_abandoned ha
  intro ls s' hmeets hexec
  obtain ⟨hinv', ha', hheap⟩ := hinv.abandoned_exec ha ls hmeets hexec
  exact ⟨ha', hheap, hinv'.refers_of_abandoned ha'⟩

/-! ### Runs -/

/-- Nothing is queued, no thread is in `run` and there is no fiber. -/
def empty : Lifetimes ℕ where
  toWorkers := Workers.empty
  pointers := .new
  destructorFailed := false

theorem empty_initial :
  Initial empty
  where
  workers := Workers.empty_initial
  next := rfl
  pointers := rfl
  destructor := rfl

/-- The state after some steps from the empty scheduler. -/
def after (as : List (Action ℕ)) : Lifetimes ℕ :=
  ((system ℕ).exec as empty).getD empty

/-- Fiber `0` is scheduled, the task gives its pointer up, thread `1` takes the entry, and thread
`2` finds no other. -/
def scanned : List (Action ℕ) :=
  [.scheduler (.schedule (.newFiber (some (.task 0)))),
    .scheduler (.schedule (.scheduler (some (.fiber 0)) (-1))), .drop 0, .scheduler (.run 1),
    .scheduler (.run 2), .scheduler (.scan 1), .scheduler (.scan 2)]

/-- Thread `2` switches into its idle fiber. -/
def idles : List (Action ℕ) :=
  [.scheduler (.count 2), .scheduler (.swapIn 2)]

/-- Thread `w` handles the fiber it has chosen, which executes one segment. -/
def handles (w : ThreadId) (e : Ending ℕ) : List (Action ℕ) :=
  [.scheduler (.count w), .scheduler (.swapIn w), .scheduler (.leave w e),
    .scheduler (.swapOut w), .scheduler (.uncount w), .scheduler (.settle w)]

/-- A step that is not a dispatch chooses nothing. -/
theorem unhandled_of_ne {a : Action κ} (ha : ∀ w, a ≠ .scheduler (.dispatch w))
    (s : Lifetimes κ) :
  Unhandled a s
  := by
  rintro b rfl
  exact Workers.unhandled_of_ne (fun w hb => ha w (congrArg _ hb)) s.toWorkers

/-- A run of other threads leaves a thread where it was. -/
theorem exec_worker_of_ne {as : List (Action κ)} {s t : Lifetimes κ}
    (hexec : (system κ).exec as s = some t) {w : ThreadId}
    (has : ∀ b, .scheduler b ∈ as → b.worker? ≠ some w) :
  t.worker w = s.worker w
  := by
  induction as generalizing s with
  | nil =>
      obtain rfl := Option.some.inj hexec
      rfl
  | cons a as ih =>
      obtain ⟨r, hr, hexec⟩ := Option.bind_eq_some_iff.mp hexec
      rw [ih hexec fun b hb => has b (List.mem_cons_of_mem a hb)]
      obtain ⟨b, u, rfl, -, hact, rfl⟩ | ⟨f, -, rfl⟩ | ⟨f, rfl⟩ := step_cases hr
      · exact Workers.act_worker_of_ne hact (has b List.mem_cons_self)
      · rfl
      · rfl

/-- A dispatch in a run of two threads, if the other one does not handle what is chosen. -/
theorem unhandled_dispatch {as : List (Action ℕ)} {s : Lifetimes ℕ}
    (hexec : (system ℕ).exec as empty = some s)
    (has : ∀ b, .scheduler b ∈ as → ∀ w, b.worker? = some w → w = 1 ∨ w = 2) {w : ThreadId}
    (h : ∀ w' ∈ [1, 2], w' ≠ w →
      (s.worker w').pc.handled = none ∨ (s.worker w').pc.handled ≠ s.chooses w) :
  Unhandled (.scheduler (.dispatch w)) s
  := by
  rintro _ ⟨⟩ w ⟨⟩
  apply Workers.ne_of_chooses rfl _ h
  intro w' hw'
  have hworker : s.worker w' = empty.worker w' := by
    apply exec_worker_of_ne hexec
    exact fun b hb heq => hw' (by simpa using has b hb w' heq)
  rw [hworker]
  rfl

/-- Thread `1` handles fiber `0`, while thread `2` is inside its idle fiber. -/
def handled (e : Ending ℕ) : List (Action ℕ) :=
  scanned ++ [.scheduler (.dispatch 1), .scheduler (.dispatch 2)] ++ idles ++ handles 1 e

theorem handled_reaches (e : Ending ℕ) {s : Lifetimes ℕ}
    (h : (system ℕ).exec (handled e) empty = some s) :
  (system ℕ).Reaches Unhandled s
  := by
  have hempty : (system ℕ).Reaches Unhandled empty := .init empty_initial
  have hscanned : (system ℕ).Reaches Unhandled (after scanned) :=
    hempty.exec scanned (by simp [scanned, unhandled_of_ne]) rfl
  have hone : Unhandled (.scheduler (.dispatch 1)) (after scanned) := by
    have hexec : (system ℕ).exec scanned empty = some (after scanned) := rfl
    apply unhandled_dispatch hexec (by simp [scanned, WbServer.Action.worker?])
    decide
  have hdispatch : (system ℕ).Reaches Unhandled (after (scanned ++ [.scheduler (.dispatch 1)])) :=
    hscanned.step hone rfl
  have htwo : Unhandled (.scheduler (.dispatch 2))
      (after (scanned ++ [.scheduler (.dispatch 1)])) := by
    have hexec : (system ℕ).exec (scanned ++ [.scheduler (.dispatch 1)]) empty =
      some (after (scanned ++ [.scheduler (.dispatch 1)])) := rfl
    apply unhandled_dispatch hexec (by simp [scanned, WbServer.Action.worker?])
    decide
  have hboth : (system ℕ).Reaches Unhandled
      (after (scanned ++ [.scheduler (.dispatch 1), .scheduler (.dispatch 2)])) :=
    hdispatch.step htwo rfl
  apply hboth.exec (idles ++ handles 1 e) (by simp [idles, handles, unhandled_of_ne])
  exact h

/-- The callback of fiber `0` returns, and the thread gives up the last pointer to the fiber. -/
theorem destroyed_unused_returned :
  let s := after (handled .ret)
  s.pointers.freed = [0] ∧ (s.worker 2).pc = .inside .idle 2 ∧ ∀ w, ¬ s.Refers w 0
  := by
  have h := destroyed_unused (handled_reaches .ret rfl)
  exact ⟨rfl, rfl, (h.2.2.2 0 (List.mem_singleton_self 0)).1⟩

/-- The callback of fiber `0` calls `YeidToHold`, with no pointer to the fiber elsewhere. -/
theorem abandoned_stays_held :
  let s := after (handled (.yeidToHold (.task 1)))
  s.Abandoned 0 ∧ (s.worker 2).pc = .inside .idle 2 ∧
    ∀ ls s', (system ℕ).Meets Unhandled ls s → (system ℕ).exec ls s = some s' →
      s'.heap 0 = s.heap 0
  := by
  have hheld : (after (handled (.yeidToHold (.task 1)))).pointers.held =
    [(.yield, 0), (.mainFunc, 0), (.mainFunc, 2), (.idleFiber 2, 2), (.idleFiber 1, 1)] := rfl
  have habandoned : (after (handled (.yeidToHold (.task 1)))).Abandoned 0 := by
    constructor
    case below => exact Nat.lt_of_lt_of_eq (Nat.zero_lt_succ 2) rfl
    case notFreed => exact List.not_mem_nil
    case onStack =>
      intro p hp
      rw [hheld] at hp
      simpa [Holder.OnStack, or_comm] using hp
  have h := abandoned_stays (handled_reaches (.yeidToHold (.task 1)) rfl) habandoned
  exact ⟨habandoned, rfl, fun ls s' hmeets hexec => (h.2 ls s' hmeets hexec).2.1⟩

/-- Thread `w` goes through the scan and the dispatch. -/
def takes (w : ThreadId) : List (Action ℕ) :=
  [.scheduler (.scan w), .scheduler (.dispatch w)]

/-- The callback of thread `1` schedules its own fiber `1` and returns, and thread `2` executes
the entry: the fiber has no callback, and its state becomes `EXCEPT`. -/
def excepts : List (Action ℕ) :=
  [.scheduler (.schedule (.scheduler (some (.cb (.task 0))) (-1))), .scheduler (.run 1)] ++
    takes 1 ++
    [.scheduler (.count 1), .scheduler (.swapIn 1),
      .scheduler (.call 1 (.scheduler (some (.fiber 1)) (-1))), .scheduler (.leave 1 .ret),
      .scheduler (.swapOut 1), .scheduler (.uncount 1), .scheduler (.settle 1),
      .scheduler (.run 2)] ++ takes 2 ++
    [.scheduler (.count 2), .scheduler (.swapIn 2), .scheduler (.leave 2 .throw),
      .scheduler (.swapOut 2), .scheduler (.uncount 2)]

/-- Before thread `2` looks at the state, thread `1` puts the next callback into the fiber, and
resets it when the callback has returned. -/
def resets : List (Action ℕ) :=
  [.scheduler (.schedule (.scheduler (some (.cb (.task 1))) (-1)))] ++ takes 1 ++ handles 1 .ret

/-- Thread `1` leaves `run`. -/
def stops : List (Action ℕ) :=
  takes 1 ++ handles 1 .ret ++ takes 1

/-- Thread `2` puts the fiber on `HOLD`, and the destructor finds it so. -/
theorem destructor_fails :
  ∃ s, (system ℕ).Reachable s ∧ s.failed = none ∧ s.destructorFailed = true
  := by
  have hempty : (system ℕ).Reachable empty := .init empty_initial
  have hview : ((system ℕ).exec (excepts ++ resets ++ [.scheduler (.settle 2)] ++ stops)
      empty).map (fun s => (s.failed, s.destructorFailed)) = some (none, true) := by
    decide +kernel
  obtain ⟨s, hexec, hs⟩ := Option.map_eq_some_iff.mp hview
  exact ⟨s, hempty.exec _ hexec, Prod.mk.inj hs⟩

end Lifetimes

end WbServer
