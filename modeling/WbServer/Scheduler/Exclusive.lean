import WbServer.Scheduler.Workers

/-!
# Exclusive execution of fibers

The lock protects the scan, but not what follows it: a fiber is `EXEC` only from the state
write of `swap_in` on, and not any more from the state write that ends its segment on,
although its context is still in use until the switch out. A second thread that finds
another entry of the fiber in one of these two windows chooses it as well.

A thread has chosen a fiber from the dispatch on until it has switched out of it
(`Pc.chosen`). If no thread chooses a fiber that another thread has chosen
(`Workers.ChoosesFree`), no fiber is executed by two threads, and `swap_in` never finds
`EXEC` (`Workers.reaches_exclusive`).
-/

namespace WbServer

variable {κ : Type}

/-! ### Places -/

namespace Pc

/-- The fiber at hand. -/
def fiber? : Pc κ → Option FiberId
  | .dispatch (some ⟨.fiber f, _⟩) => some f
  | .count _ f => some f
  | .enter _ f => some f
  | .inside _ f => some f
  | .leaving _ f _ => some f
  | .back _ f => some f
  | .settle _ f => some f
  | .requeue _ f => some f
  | _ => none

/-- The fiber of the entry behind the scan. -/
def scanned : Pc κ → Option FiberId
  | .dispatch (some ⟨.fiber f, _⟩) => some f
  | _ => none

/-- The fiber chosen for the next `swap_in`. -/
def entering : Pc κ → Option FiberId
  | .count _ f => some f
  | .enter _ f => some f
  | _ => none

/-- The fiber whose code is executed, in front of the state write that ends the segment. -/
def running : Pc κ → Option FiberId
  | .inside _ f => some f
  | _ => none

/-- The fiber whose context is in use. -/
def executing : Pc κ → Option FiberId
  | .inside _ f => some f
  | .leaving _ f _ => some f
  | _ => none

/-- The fiber chosen at the dispatch and not yet switched out of. -/
def chosen : Pc κ → Option FiberId
  | .count _ f => some f
  | .enter _ f => some f
  | .inside _ f => some f
  | .leaving _ f _ => some f
  | _ => none

variable {pc : Pc κ} {f : FiberId}

/-- A fiber that is executed has been chosen. -/
theorem chosen_of_executing (h : pc.executing = some f) :
  pc.chosen = some f
  := by
  cases pc <;> first | exact h | cases h

/-- A fiber that is running has been chosen. -/
theorem chosen_of_running (h : pc.running = some f) :
  pc.chosen = some f
  := by
  cases pc <;> first | exact h | cases h

/-- A fiber that is entered has been chosen. -/
theorem chosen_of_entering (h : pc.entering = some f) :
  pc.chosen = some f
  := by
  cases pc <;> first | exact h | cases h

theorem fiber?_of_chosen (h : pc.chosen = some f) :
  pc.fiber? = some f
  := by
  cases pc <;> first | exact h | cases h

theorem fiber?_of_scanned (h : pc.scanned = some f) :
  pc.fiber? = some f
  := by
  unfold scanned at h
  split at h
  · apply h
  · cases h

end Pc

/-- The fibers a thread refers to have been constructed. -/
structure Worker.Valid (next : FiberId) (wk : Worker κ) : Prop where
  fiber : ∀ f, wk.pc.fiber? = some f → f < next
  idle : wk.pc ≠ .outside → wk.idleFiber < next
  cb : ∀ f, wk.cbFiber = some f → f < next

/-- The fibers a thread may choose at a dispatch without resetting them. -/
def Worker.Awaits (wk : Worker κ) (f : FiberId) : Prop :=
  wk.pc.scanned = some f ∨ wk.pc ≠ .outside ∧ wk.idleFiber = f

/-- A thread waits only for fibers that have been constructed. -/
theorem Worker.Valid.awaits {next : FiberId} {wk : Worker κ} (h : wk.Valid next) {f : FiberId}
    (hf : wk.Awaits f) :
  f < next
  := by
  obtain hf | ⟨hpc, rfl⟩ := hf
  · apply h.fiber f (Pc.fiber?_of_scanned hf)
  · apply h.idle hpc

namespace Workers

/-- No fiber is executed by two threads. -/
def Exclusive (s : Workers κ) : Prop :=
  ∀ w w' f, (s.worker w).pc.executing = some f → (s.worker w').pc.executing = some f → w = w'

/-- The existing fiber that the dispatch of thread `w` chooses. -/
def chooses (s : Workers κ) (w : ThreadId) : Option FiberId :=
  let idle :=
    if (s.heap (s.worker w).idleFiber).mState = .term then none
    else some (s.worker w).idleFiber
  match (s.worker w).pc with
  | .dispatch none => idle
  | .dispatch (some ⟨.fiber f, _⟩) => if (s.heap f).mState.Finished then idle else some f
  | .dispatch (some ⟨.cb _, _⟩) =>
      (s.worker w).cbFiber.filter fun f => (s.heap f).mState.Resettable
  | _ => none

/-- At a dispatch, the thread does not choose a fiber that another thread has chosen and
not yet switched out of. -/
def ChoosesFree (a : Action κ) (s : Workers κ) : Prop :=
  ∀ w, a = .dispatch w → ∀ f, s.chooses w = some f →
    ∀ w' ≠ w, (s.worker w').pc.chosen ≠ some f

/-! ### The invariant -/

/-- What the steps keep as long as no thread chooses a fiber that is taken. -/
structure Claimed (s : Workers κ) : Prop where
  queue : ∀ ft ∈ s.mFibers, ft.task.NonNull s.next
  valid : ∀ w, (s.worker w).Valid s.next
  single : ∀ w w' f, (s.worker w).pc.chosen = some f → (s.worker w').pc.chosen = some f → w = w'
  entering : ∀ w f, (s.worker w).pc.entering = some f → (s.heap f).mState ≠ .exec
  awaits : ∀ w f, (s.worker w).Awaits f → (s.heap f).mState = .exec →
    ∃ w', (s.worker w').pc.running = some f
  failed : s.failed ≠ some .swapIn

/-- A fiber that is claimed by one thread is executed by no other. -/
theorem Claimed.exclusive {s : Workers κ} (h : s.Claimed) :
  s.Exclusive
  := by
  intro w w' f hw hw'
  apply h.single w w' f (Pc.chosen_of_executing hw) (Pc.chosen_of_executing hw')

/-- What a step of thread `w` writes apart from its place: no fiber becomes `EXEC`. -/
structure Writes (w : ThreadId) (s t : Workers κ) : Prop where
  others : ∀ w' ≠ w, t.worker w' = s.worker w'
  idleFiber : (t.worker w).idleFiber = (s.worker w).idleFiber
  cbFiber : ∀ f, (t.worker w).cbFiber = some f → f < t.next
  next : s.next ≤ t.next
  heap : ∀ f < s.next, (t.heap f).mState = .exec → (s.heap f).mState = .exec
  queue : ∀ ft ∈ t.mFibers, ft.task.NonNull t.next
  failed : t.failed ≠ some .swapIn

theorem Claimed.writes {s : Workers κ} (h : s.Claimed) (w : ThreadId) :
  Writes w s s
  where
  others _ _ := rfl
  idleFiber := rfl
  cbFiber := (h.valid w).cb
  next := Nat.le_refl _
  heap _ _ := id
  queue := h.queue
  failed := h.failed

theorem Writes.set {w : ThreadId} {s t : Workers κ} (h : Writes w s t) {fb : Fiber κ}
    {f : FiberId} (hfb : fb.mState = .exec → (t.heap f).mState = .exec) :
  Writes w s (t.set f fb)
  where
  others := h.others
  idleFiber := h.idleFiber
  cbFiber := h.cbFiber
  next := h.next
  heap g hg hexec := by
    by_cases hgf : g = f
    · simp only [Workers.set, hgf, Function.update_self] at hexec
      apply h.heap g hg (hgf ▸ hfb hexec)
    · simp only [Workers.set, Function.update_of_ne hgf] at hexec
      apply h.heap g hg hexec
  queue := h.queue
  failed := h.failed

theorem Writes.forgetCbFiber {w : ThreadId} {s t : Workers κ} (h : Writes w s t) :
  Writes w s (t.setCbFiber w none)
  where
  others w' hw' := by simp [setCbFiber, hw', h.others w' hw']
  idleFiber := by simp [setCbFiber, h.idleFiber]
  cbFiber f hf := by simp [setCbFiber] at hf
  next := h.next
  heap := h.heap
  queue := h.queue
  failed := h.failed

theorem Writes.call {w : ThreadId} {s t : Workers κ} (h : Writes w s t) (c : Call κ) :
  Writes w s { t with toScheduler := t.toScheduler.call c }
  := by
  cases c with
  | scheduler fc thread =>
      constructor
      case others => apply h.others
      case idleFiber => apply h.idleFiber
      case cbFiber => apply h.cbFiber
      case next => apply h.next
      case heap => apply h.heap
      case failed => apply h.failed
      case queue =>
        intro ft hft
        simp only [Scheduler.call, Scheduler.scheduler, Scheduler.schedulerNolock_eq,
          List.mem_append] at hft
        obtain hft | hft := hft
        · apply h.queue ft hft
        · apply (Scheduler.mem_entries hft).2.2
  | newFiber cb =>
      constructor
      case others => apply h.others
      case idleFiber => apply h.idleFiber
      case cbFiber => exact fun f hf => Nat.lt_succ_of_lt (h.cbFiber f hf)
      case next => apply Nat.le_succ_of_le h.next
      case failed => apply h.failed
      case queue => exact fun ft hft => (h.queue ft hft).mono (Nat.le_succ _)
      case heap =>
        intro f hf hexec
        have hne : f ≠ t.next := Nat.ne_of_lt (Nat.lt_of_lt_of_le hf h.next)
        simp only [Scheduler.call, Function.update_of_ne hne] at hexec
        apply h.heap f hf hexec

/-- The step of a thread `w`: only the fiber it runs afterwards becomes `EXEC`, and what
it has chosen afterwards no other thread has chosen. -/
theorem Claimed.step {s s' : Workers κ} (h : s.Claimed) {w : ThreadId}
    (hothers : ∀ w' ≠ w, s'.worker w' = s.worker w') (hnext : s.next ≤ s'.next)
    (hheap : ∀ f < s.next, (s'.heap f).mState = .exec →
      (s.heap f).mState = .exec ∨ (s'.worker w).pc.running = some f)
    (hqueue : ∀ ft ∈ s'.mFibers, ft.task.NonNull s'.next) (hfailed : s'.failed ≠ some .swapIn)
    (hvalid : (s'.worker w).Valid s'.next)
    (hchosen : ∀ f, (s'.worker w).pc.chosen = some f →
      (s.worker w).pc.chosen = some f ∨ ∀ w' ≠ w, (s.worker w').pc.chosen ≠ some f)
    (hentering : ∀ f, (s'.worker w).pc.entering = some f → (s'.heap f).mState ≠ .exec)
    (hawaits : ∀ f, (s'.worker w).Awaits f → (s.worker w).Awaits f ∨ (s'.heap f).mState ≠ .exec)
    (hrunning : ∀ f, (s.worker w).pc.running = some f →
      (s'.worker w).pc.running = some f ∨ (s'.heap f).mState ≠ .exec) :
  s'.Claimed
  := by
  have hfree : ∀ f, (s'.worker w).pc.chosen = some f →
      ∀ w' ≠ w, (s.worker w').pc.chosen ≠ some f := by
    intro f hf
    obtain hf | hf := hchosen f hf
    · exact fun w' hne hw' => hne (h.single w' w f hw' hf)
    · apply hf
  constructor
  case queue => apply hqueue
  case failed => apply hfailed
  case valid =>
    intro w'
    by_cases hw : w' = w
    · apply hw ▸ hvalid
    · rw [hothers w' hw]
      have hv := h.valid w'
      exact ⟨fun f hf => Nat.lt_of_lt_of_le (hv.fiber f hf) hnext,
        fun hpc => Nat.lt_of_lt_of_le (hv.idle hpc) hnext,
        fun f hf => Nat.lt_of_lt_of_le (hv.cb f hf) hnext⟩
  case single =>
    intro w₁ w₂ f h₁ h₂
    by_cases hw₁ : w₁ = w
    · by_cases hw₂ : w₂ = w
      · rw [hw₁, hw₂]
      · rw [hw₁] at h₁
        rw [hothers w₂ hw₂] at h₂
        apply absurd h₂ (hfree f h₁ w₂ hw₂)
    · rw [hothers w₁ hw₁] at h₁
      by_cases hw₂ : w₂ = w
      · rw [hw₂] at h₂
        apply absurd h₁ (hfree f h₂ w₁ hw₁)
      · rw [hothers w₂ hw₂] at h₂
        apply h.single w₁ w₂ f h₁ h₂
  case entering =>
    intro w' f hf hexec
    by_cases hw : w' = w
    · apply hentering f (hw ▸ hf) hexec
    · rw [hothers w' hw] at hf
      have hc := Pc.chosen_of_entering hf
      have hlt := (h.valid w').fiber f (Pc.fiber?_of_chosen hc)
      obtain hexec | hrun := hheap f hlt hexec
      · apply h.entering w' f hf hexec
      · apply hfree f (Pc.chosen_of_running hrun) w' hw hc
  case awaits =>
    intro w' f hf hexec
    have hold : ∀ w₁, (s.worker w₁).Awaits f → ∃ w₂, (s'.worker w₂).pc.running = some f := by
      intro w₁ hw₁
      obtain hexec' | hrun := hheap f ((h.valid w₁).awaits hw₁) hexec
      · obtain ⟨w₂, hw₂⟩ := h.awaits w₁ f hw₁ hexec'
        by_cases hw : w₂ = w
        · obtain hrun | hne := hrunning f (hw ▸ hw₂)
          · use w
          · apply absurd hexec hne
        · use w₂
          rw [hothers w₂ hw, hw₂]
      · use w
    by_cases hw : w' = w
    · obtain hf | hne := hawaits f (hw ▸ hf)
      · apply hold w hf
      · apply absurd hexec hne
    · apply hold w' (hothers w' hw ▸ hf)

/-- The step of a thread in `run` that moves it to another place. -/
theorem Claimed.move {s t : Workers κ} (h : s.Claimed) {w : ThreadId} (ht : Writes w s t)
    (hin : (s.worker w).pc ≠ .outside) {pc : Pc κ}
    (hfiber : ∀ f, pc.fiber? = some f → f < t.next)
    (hchosen : ∀ f, pc.chosen = some f →
      (s.worker w).pc.chosen = some f ∨ ∀ w' ≠ w, (s.worker w').pc.chosen ≠ some f)
    (hentering : ∀ f, pc.entering = some f → (t.heap f).mState ≠ .exec)
    (hscanned : ∀ f, pc.scanned = some f → (t.heap f).mState ≠ .exec)
    (hrunning : ∀ f, (s.worker w).pc.running = some f →
      pc.running = some f ∨ (t.heap f).mState ≠ .exec) :
  (t.setPc w pc).Claimed
  := by
  have hworker : (t.setPc w pc).worker w = { t.worker w with pc := pc } := by
    simp [setPc]
  refine h.step (w := w) ?_ ht.next ?_ ht.queue ht.failed ?_ ?_ ?_ ?_ ?_
  · intro w' hw
    rw [setPc_of_ne _ hw, ht.others w' hw]
  · exact fun f hf hexec => .inl (ht.heap f hf hexec)
  · rw [hworker]
    refine ⟨hfiber, fun _ => ?_, ht.cbFiber⟩
    apply Nat.lt_of_lt_of_le (ht.idleFiber ▸ (h.valid w).idle hin) ht.next
  · rw [hworker]
    apply hchosen
  · rw [hworker]
    apply hentering
  · rw [hworker]
    rintro f (hf | ⟨-, rfl⟩)
    · exact .inr (hscanned f hf)
    · exact .inl (.inr ⟨hin, ht.idleFiber.symm⟩)
  · rw [hworker]
    apply hrunning

/-- A thread gives up what it had chosen, or keeps nothing chosen. -/
theorem Claimed.release {s t : Workers κ} (h : s.Claimed) {w : ThreadId} (ht : Writes w s t)
    (hin : (s.worker w).pc ≠ .outside) {pc : Pc κ}
    (hfiber : ∀ f, pc.fiber? = some f → (s.worker w).pc.fiber? = some f)
    (hchosen : pc.chosen = none) (hscanned : pc.scanned = none)
    (hrunning : (s.worker w).pc.running = none) :
  (t.setPc w pc).Claimed
  := by
  apply h.move ht hin
  · exact fun f hf => Nat.lt_of_lt_of_le ((h.valid w).fiber f (hfiber f hf)) ht.next
  · simp [hchosen]
  · intro f hf
    simp [Pc.chosen_of_entering hf] at hchosen
  · simp [hscanned]
  · simp [hrunning]

/-- A thread chooses the fiber `f`. -/
theorem Claimed.choose {s t : Workers κ} (h : s.Claimed) {w : ThreadId} (ht : Writes w s t)
    {ft : Option (FiberAndThread κ)} (hpc : (s.worker w).pc = .dispatch ft) {b : Branch}
    {f : FiberId} (hlt : f < s.next) (hfree : ∀ w' ≠ w, (s.worker w').pc.chosen ≠ some f)
    (hexec : (t.heap f).mState ≠ .exec) :
  (t.setPc w (.count b f)).Claimed
  := by
  apply h.move ht (by simp [hpc])
  · rintro g ⟨⟩
    apply Nat.lt_of_lt_of_le hlt ht.next
  · rintro g ⟨⟩
    exact .inr hfree
  · rintro g ⟨⟩
    apply hexec
  · rintro g ⟨⟩
  · simp [hpc, Pc.running]

/-- A fiber that the thread awaits and no other thread has chosen is not `EXEC`. -/
theorem Claimed.not_exec_of_awaits {s : Workers κ} (h : s.Claimed) {w : ThreadId} {f : FiberId}
    (hf : (s.worker w).Awaits f) (hfree : ∀ w' ≠ w, (s.worker w').pc.chosen ≠ some f)
    (hrunning : (s.worker w).pc.running = none) :
  (s.heap f).mState ≠ .exec
  := by
  intro hexec
  obtain ⟨w', hw'⟩ := h.awaits w f hf hexec
  by_cases hw : w' = w
  · simp [hw, hrunning] at hw'
  · apply hfree w' hw (Pc.chosen_of_running hw')

/-! ### The steps -/

attribute [simp] Pc.fiber? Pc.scanned Pc.entering Pc.running Pc.chosen

/-- The thread constructs a fiber, which no other thread knows, and runs no fiber. -/
theorem Claimed.alloc {s : Workers κ} (h : s.Claimed) {w : ThreadId} (cb : Option (Code κ))
    {wk : Worker κ} (hvalid : wk.Valid (s.next + 1))
    (hchosen : ∀ f, wk.pc.chosen = some f → f = s.next)
    (hawaits : ∀ f, wk.Awaits f → f = s.next ∨ (s.worker w).Awaits f)
    (hrunning : (s.worker w).pc.running = none) :
  Claimed { s with
    heap := Function.update s.heap s.next (Fiber.new cb)
    next := s.next + 1
    worker := Function.update s.worker w wk }
  := by
  have hnew : (Fiber.new cb).mState ≠ .exec := by simp [Fiber.new]
  refine h.step (w := w) ?_ (Nat.le_succ _) ?_ ?_ h.failed ?_ ?_ ?_ ?_ ?_
  · intro w' hw
    apply Function.update_of_ne hw
  · intro f hf hexec
    simp only [Function.update_of_ne (Nat.ne_of_lt hf)] at hexec
    exact .inl hexec
  · exact fun ft hft => (h.queue ft hft).mono (Nat.le_succ _)
  · simpa using hvalid
  · intro f hf
    simp only [Function.update_self] at hf
    obtain rfl := hchosen f hf
    right
    intro w' _ hw'
    exact Nat.lt_irrefl _ ((h.valid w').fiber s.next (Pc.fiber?_of_chosen hw'))
  · intro f hf
    simp only [Function.update_self] at hf
    obtain rfl := hchosen f (Pc.chosen_of_entering hf)
    simpa using hnew
  · intro f hf
    simp only [Function.update_self] at hf
    obtain rfl | hf := hawaits f hf
    · right
      simpa using hnew
    · exact .inl hf
  · intro f hf
    cases hrunning.symm.trans hf

/-- A thread enters `run()` and constructs its idle fiber. -/
theorem Claimed.run {s s' : Workers κ} (h : s.Claimed) {w : ThreadId}
    (hstep : s.stepRun w = some s') :
  s'.Claimed
  := by
  rcases stepRun_cases hstep with ⟨hpc, rfl⟩
  apply h.alloc (some .idle)
  · constructor <;> simp
  · simp
  · simp [Worker.Awaits, eq_comm]
  · simp [hpc]

/-- The fiber of an entry that the scan returns exists and is not `EXEC`. -/
theorem scan_fiber {s : Workers κ} (h : ∀ ft ∈ s.mFibers, ft.task.NonNull s.next) {w : ThreadId}
    {ft : FiberAndThread κ} {rest : List (FiberAndThread κ)}
    (hscan : WbServer.scan s.heap w s.mFibers = some (ft, rest)) {f : FiberId}
    (hf : ft.task = .fiber f) :
  f < s.next ∧ (s.heap f).mState ≠ .exec
  := by
  obtain ⟨pre, post, heq, -, -, hft⟩ := scan_eq_some hscan
  have hmem : ft ∈ s.mFibers := by simp [heq]
  obtain ⟨task, thread⟩ := ft
  obtain rfl : task = .fiber f := hf
  constructor
  · apply h _ hmem
  · exact fun hexec => hft (.inr hexec)

/-- A thread takes an entry whose fiber is not executing. -/
theorem Claimed.scan {s s' : Workers κ} (h : s.Claimed) {w : ThreadId}
    (hstep : s.stepScan w = some s') :
  s'.Claimed
  := by
  rcases stepScan_cases hstep with ⟨hpc, ⟨-, rfl⟩ | ⟨ft, rest, hscan, rfl⟩⟩
  · apply h.release (h.writes w) <;> simp [hpc]
  · have hwrites : Writes w s { s with mFibers := rest } := by
      obtain ⟨pre, post, heq, rfl, -⟩ := scan_eq_some hscan
      refine { h.writes w with queue := fun ft' hft' => h.queue ft' ?_ }
      simp only [List.mem_append] at hft'
      simp only [heq, List.mem_append, List.mem_cons]
      tauto
    have hfiber : ∀ f, (Pc.dispatch (some ft)).fiber? = some f →
        f < s.next ∧ (s.heap f).mState ≠ .exec := by
      intro f hf
      obtain ⟨task, thread⟩ := ft
      cases task with
      | fiber g =>
          obtain rfl : g = f := Option.some.inj hf
          apply scan_fiber h.queue hscan rfl
      | cb c => cases hf
    apply h.move hwrites (by simp [hpc])
    · exact fun f hf => (hfiber f hf).1
    · simp
    · simp
    · exact fun f hf => (hfiber f (Pc.fiber?_of_scanned hf)).2
    · simp [hpc]

/-- The idle fiber is claimed by its own thread only. -/
theorem Claimed.idleOrBreak {s : Workers κ} (h : s.Claimed) {w : ThreadId}
    {ft : Option (FiberAndThread κ)} (hpc : (s.worker w).pc = .dispatch ft)
    (hfree : (s.heap (s.worker w).idleFiber).mState ≠ .term →
      ∀ w' ≠ w, (s.worker w').pc.chosen ≠ some (s.worker w).idleFiber) :
  (s.idleOrBreak w).Claimed
  := by
  have hin : (s.worker w).pc ≠ .outside := by simp [hpc]
  have hrunning : (s.worker w).pc.running = none := by simp [hpc]
  unfold Workers.idleOrBreak
  split
  case isTrue =>
    apply h.release (h.writes w) hin <;> simp [hpc]
  case isFalse hterm =>
    apply h.choose (h.writes w) hpc ((h.valid w).idle hin) (hfree hterm)
    apply h.not_exec_of_awaits (.inr ⟨hin, rfl⟩) (hfree hterm) hrunning

/-- A callback is bound to a fiber that no other thread has chosen, or to a new one. -/
theorem Claimed.bindCb {s : Workers κ} (h : s.Claimed) {w : ThreadId}
    {ft : Option (FiberAndThread κ)} (hpc : (s.worker w).pc = .dispatch ft) (c : Code κ)
    (hfree : ∀ f, (s.worker w).cbFiber = some f → (s.heap f).mState.Resettable →
      ∀ w' ≠ w, (s.worker w').pc.chosen ≠ some f) :
  (s.bindCb w c).Claimed
  := by
  obtain ⟨f, hcb, ⟨hreset, hs'⟩ | ⟨-, hs'⟩⟩ | ⟨-, hs'⟩ := bindCb_cases s w c <;> rw [hs']
  · have hnew : (Fiber.new (some c)).mState ≠ .exec := by simp [Fiber.new]
    apply h.choose ((h.writes w).set (absurd · hnew)) hpc ((h.valid w).cb f hcb)
      (hfree f hcb hreset)
    simp [Workers.set, Fiber.new]
  · exact { h with failed := by simp [fail] }
  · apply h.alloc (some c)
    · have hidle : (s.worker w).idleFiber < s.next := (h.valid w).idle (by simp [hpc])
      constructor
      case fiber => simp
      case idle => simpa using Nat.lt_succ_of_lt hidle
      case cb => simp
    · intro f hf
      simpa [eq_comm] using hf
    · intro f hf
      have hidle : (s.worker w).idleFiber = f := by simpa [Worker.Awaits] using hf
      exact .inr (.inr ⟨by simp [hpc], hidle⟩)
    · simp [hpc]

/-- What the dispatch chooses where it takes the idle branch. -/
theorem chooses_idle {s : Workers κ} {w : ThreadId} {ft : Option (FiberAndThread κ)}
    (hpc : (s.worker w).pc = .dispatch ft) (hft : ∀ it, ft = some it → ¬ it.Runnable s.heap)
    (hterm : (s.heap (s.worker w).idleFiber).mState ≠ .term) :
  s.chooses w = some (s.worker w).idleFiber
  := by
  match ft with
  | none => simp [chooses, hpc, hterm]
  | some ⟨.fiber f, thread⟩ =>
      have hfinished : (s.heap f).mState.Finished := not_not.mp (hft _ rfl)
      simp [chooses, hpc, hterm, hfinished]
  | some ⟨.cb c, thread⟩ => apply absurd trivial (hft _ rfl)

/-- The thread chooses a branch. -/
theorem Claimed.dispatch {s s' : Workers κ} (h : s.Claimed) {w : ThreadId}
    (hok : ChoosesFree (.dispatch w) s) (hstep : s.stepDispatch w = some s') :
  s'.Claimed
  := by
  have hfree := hok w rfl
  rcases stepDispatch_cases hstep with ⟨ft, hpc, hs'⟩
  rcases hs' with ⟨hft, rfl⟩ | ⟨f, thread, rfl, hfinished, rfl⟩ | ⟨c, thread, rfl, rfl⟩
  · apply h.idleOrBreak hpc
    intro hterm
    apply hfree
    apply chooses_idle hpc hft hterm
  · have hscanned : (s.worker w).pc.scanned = some f := by simp [hpc]
    have hothers := hfree f (by simp [chooses, hpc, hfinished])
    apply h.choose (h.writes w) hpc _ hothers
    · apply h.not_exec_of_awaits (.inl hscanned) hothers
      simp [hpc]
    · apply (h.valid w).awaits (.inl hscanned)
  · apply h.bindCb hpc
    intro f hcb hreset
    apply hfree
    simp [chooses, hpc, hcb, hreset]

/-- The thread is counted as active. -/
theorem Claimed.count {s s' : Workers κ} (h : s.Claimed) {w : ThreadId}
    (hstep : s.stepCount w = some s') :
  s'.Claimed
  := by
  rcases stepCount_cases hstep with ⟨b, f, hpc, rfl⟩
  have hwrites : Writes w s (s.increment b) := by
    cases b <;> exact { h.writes w with }
  apply h.move hwrites (by simp [hpc])
  · rintro g ⟨⟩
    apply Nat.lt_of_lt_of_le ((h.valid w).fiber f (by simp [hpc])) hwrites.next
  · simp [hpc]
  · rintro g ⟨⟩
    rw [increment_heap]
    apply h.entering w f (by simp [hpc])
  · simp
  · simp [hpc]

/-- The assertion of `swap_in` holds. -/
theorem Claimed.swapIn {s s' : Workers κ} (h : s.Claimed) {w : ThreadId}
    (hstep : s.stepSwapIn w = some s') :
  s'.Claimed
  := by
  rcases stepSwapIn_cases hstep with ⟨b, f, hpc, ⟨hexec, -⟩ | rfl | rfl⟩
  · apply absurd hexec (h.entering w f (by simp [hpc]))
  · exact { h with failed := by simp [fail] }
  · refine h.step (w := w) ?_ (Nat.le_refl _) ?_ h.queue h.failed ?_ ?_ ?_ ?_ ?_
    · exact fun w' hw => setPc_of_ne _ hw _
    · intro g hg hexec'
      by_cases hgf : g = f
      · exact .inr (by simp [hgf])
      · simp only [setPc, Workers.set, Function.update_of_ne hgf] at hexec'
        exact .inl hexec'
    · have hv := h.valid w
      refine ⟨fun g hg => hv.fiber g ?_, fun _ => ?_, fun g hg => hv.cb g ?_⟩
      · simpa [hpc] using hg
      · simpa [setPc, Workers.set] using hv.idle (by simp [hpc])
      · simpa [setPc, Workers.set] using hg
    · simp [hpc]
    · simp
    · intro g hg
      have hidle : (s.worker w).idleFiber = g := by
        simpa [Worker.Awaits, setPc, Workers.set] using hg
      exact .inl (.inr ⟨by simp [hpc], hidle⟩)
    · simp [hpc]

/-- A call of the scheduler claims no fiber. -/
theorem Claimed.call {s : Workers κ} (h : s.Claimed) (c : Call κ) :
  Claimed { s with toScheduler := s.toScheduler.call c }
  := by
  have hwrites := (h.writes 0).call c
  refine h.step (w := 0) (fun _ _ => rfl) hwrites.next ?_ hwrites.queue h.failed ?_ ?_ ?_ ?_ ?_
  · exact fun f hf hexec => .inl (hwrites.heap f hf hexec)
  · have hv := h.valid 0
    exact ⟨fun f hf => Nat.lt_of_lt_of_le (hv.fiber f hf) hwrites.next,
      fun hpc => Nat.lt_of_lt_of_le (hv.idle hpc) hwrites.next, hwrites.cbFiber⟩
  · exact fun f hf => .inl hf
  · intro f hf hexec
    have hlt := (h.valid 0).fiber f (Pc.fiber?_of_chosen (Pc.chosen_of_entering hf))
    apply h.entering 0 f hf (hwrites.heap f hlt hexec)
  · exact fun f hf => .inl hf
  · exact fun f hf => .inl hf

theorem Ending.write_ne_exec (e : Ending κ) (f : Fiber κ) :
  (e.write f).1.mState ≠ .exec
  := by
  cases e <;> simp [Ending.write]

/-- A task ends or yields: its fiber is not executing any more. -/
theorem Claimed.leave {s s' : Workers κ} (h : s.Claimed) {w : ThreadId} {e : Ending κ}
    (hstep : s.stepLeave w e = some s') :
  s'.Claimed
  := by
  rcases stepLeave_cases hstep with ⟨b, f, hpc, rfl⟩
  have hne := Ending.write_ne_exec e (s.heap f)
  apply h.move ((h.writes w).set (absurd · hne)) (by simp [hpc])
  · rintro g ⟨⟩
    apply (h.valid w).fiber f
    simp [hpc]
  · simp [hpc]
  · simp
  · simp
  · intro g hg
    obtain rfl : f = g := by simpa [hpc] using hg
    simp [Workers.set, hne]

/-- The fiber is swapped out. -/
theorem Claimed.swapOut {s s' : Workers κ} (h : s.Claimed) {w : ThreadId}
    (hstep : s.stepSwapOut w = some s') :
  s'.Claimed
  := by
  rcases stepSwapOut_cases hstep with ⟨b, f, ctx, hpc, rfl⟩
  have hwrites : Writes w s (s.set f ((s.heap f).swapOut ctx)) := (h.writes w).set id
  apply h.release hwrites <;> simp [hpc]

theorem Claimed.uncount {s s' : Workers κ} (h : s.Claimed) {w : ThreadId}
    (hstep : s.stepUncount w = some s') :
  s'.Claimed
  := by
  rcases stepUncount_cases hstep with ⟨b, f, hpc, rfl⟩
  have hwrites : Writes w s (s.decrement b) := by
    cases b <;> exact { h.writes w with }
  apply h.release hwrites <;> simp [hpc]

theorem Writes.setHold {w : ThreadId} {s t : Workers κ} (h : Writes w s t) (f : FiberId) :
  Writes w s (t.set f (t.heap f).setHold)
  := by
  apply h.set
  simp [Fiber.setHold]

theorem Writes.holdUnlessFinished {w : ThreadId} {s t : Workers κ} (h : Writes w s t)
    (f : FiberId) :
  Writes w s (t.holdUnlessFinished f)
  := by
  unfold Workers.holdUnlessFinished
  split
  · apply h
  · apply h.setHold

/-- The thread looks at the state of the fiber that has come back. -/
theorem Claimed.settle {s s' : Workers κ} (h : s.Claimed) {w : ThreadId}
    (hstep : s.stepSettle w = some s') :
  s'.Claimed
  := by
  have hwrites := h.writes w
  rcases stepSettle_cases hstep with ⟨b, f, hpc, hs'⟩
  rcases hs' with ⟨-, rfl⟩ | ⟨-, rfl⟩ | ⟨-, -, rfl⟩ | ⟨-, -, rfl⟩
  · apply h.release hwrites <;> simp [hpc]
  · apply h.release (hwrites.holdUnlessFinished f) <;> simp [hpc]
  · apply h.release (hwrites.set (by simp [Fiber.new])) <;> simp [hpc]
  · apply h.release (hwrites.setHold f).forgetCbFiber <;> simp [hpc]

/-- A fiber that is ready again is given back to the queue. -/
theorem Claimed.requeue {s s' : Workers κ} (h : s.Claimed) {w : ThreadId}
    (hstep : s.stepRequeue w = some s') :
  s'.Claimed
  := by
  rcases stepRequeue_cases hstep with ⟨b, f, t, hpc, rfl, hs'⟩
  have hwrites := (h.writes w).call (.scheduler (some (.fiber f)) (-1))
  rcases hs' with ⟨-, rfl⟩ | ⟨-, rfl⟩
  · apply h.release hwrites.forgetCbFiber <;> simp [hpc]
  · apply h.release hwrites <;> simp [hpc]

/-- Every step that chooses a free fiber keeps the claims. -/
theorem Claimed.act {s s' : Workers κ} (h : s.Claimed) {a : Action κ} (hok : ChoosesFree a s)
    (hstep : act a s = some s') :
  s'.Claimed
  := by
  cases a with
  | run w => apply h.run hstep
  | scan w => apply h.scan hstep
  | dispatch w => apply h.dispatch hok hstep
  | count w => apply h.count hstep
  | swapIn w => apply h.swapIn hstep
  | call w c =>
      rcases stepCall_cases hstep with ⟨-, rfl⟩
      apply h.call
  | leave w e => apply h.leave hstep
  | swapOut w => apply h.swapOut hstep
  | uncount w => apply h.uncount hstep
  | settle w => apply h.settle hstep
  | requeue w => apply h.requeue hstep
  | schedule c =>
      obtain rfl := Option.some.inj hstep
      apply h.call
  | setStoping b =>
      obtain rfl := Option.some.inj hstep
      exact { h with }
  | setAutoStop b =>
      obtain rfl := Option.some.inj hstep
      exact { h with }

/-- In every state that is reached under the condition. -/
theorem reaches_claimed {s : Workers κ} (h : (system κ).Reaches ChoosesFree s) :
  s.Claimed
  := by
  apply h.invariant
  · intro s hs
    constructor
    case queue => apply hs.valid
    case valid =>
      intro w
      constructor
      case fiber => simp [hs.outside w]
      case idle => simp [hs.outside w]
      case cb => simp [hs.cbFiber w]
    case single => simp [hs.outside]
    case entering => simp [hs.outside]
    case awaits => simp [hs.outside, Worker.Awaits]
    case failed => simp [hs.failed]
  · intro a s s' hs hok hstep
    simp only [system, step] at hstep
    split at hstep
    · cases hstep
    · apply hs.act hok hstep

/-- As long as no thread chooses a fiber that another thread has chosen and not yet switched
out of, no fiber is executed by two threads and `swap_in` never finds `EXEC`. -/
theorem reaches_exclusive {s : Workers κ} (h : (system κ).Reaches ChoosesFree s) :
  s.Exclusive ∧ s.failed ≠ some .swapIn
  := by
  have hs := reaches_claimed h
  exact ⟨hs.exclusive, hs.failed⟩

/-- A step that is not a dispatch chooses nothing. -/
theorem choosesFree_of_ne {a : Action κ} (ha : ∀ w, a ≠ .dispatch w) (s : Workers κ) :
  ChoosesFree a s
  := fun w h => absurd h (ha w)

/-- No other thread is at the fiber that a thread chooses, if this is so for the threads that
are in `run`; `p` is the fiber of a place. -/
theorem ne_of_chooses {p : Pc κ → Option FiberId} (hp : p .outside = none) {s : Workers κ}
    {ws : List ThreadId} (houtside : ∀ w ∉ ws, (s.worker w).pc = .outside) {w : ThreadId}
    (h : ∀ w' ∈ ws, w' ≠ w → p (s.worker w').pc = none ∨ p (s.worker w').pc ≠ s.chooses w)
    (f : FiberId) (hf : s.chooses w = some f) (w' : ThreadId) (hw : w' ≠ w) :
  p (s.worker w').pc ≠ some f
  := by
  intro heq
  by_cases hmem : w' ∈ ws
  · obtain hnone | hne := h w' hmem hw
    · rw [hnone] at heq
      cases heq
    · apply hne (heq.trans hf.symm)
  · rw [houtside w' hmem, hp] at heq
    cases heq

/-- Threads that do not act are not in `run`. -/
theorem exec_outside {as : List (Action ℕ)} {s : Workers ℕ}
    (hexec : (system ℕ).exec as empty = some s) :
  ∀ w ∉ as.filterMap Action.worker?, (s.worker w).pc = .outside
  := by
  intro w hw
  have hworker : s.worker w = empty.worker w := by
    apply exec_worker_of_ne hexec
    exact fun a ha heq => hw (List.mem_filterMap.mpr ⟨a, ha, heq⟩)
  rw [hworker]
  rfl

/-- Fiber `0` is queued and thread `1` has taken its entry. -/
def scanned : List (Action ℕ) :=
  [.schedule (.newFiber (some (.task 0))), .schedule (.scheduler (some (.fiber 0)) (-1)),
    .run 1, .scan 1]

/-- The state after some steps from the empty scheduler. -/
def after (as : List (Action ℕ)) : Workers ℕ :=
  ((system ℕ).exec as empty).getD empty

/-- Thread `1` has taken the entry of fiber `0` and thread `2` that of fiber `1`. -/
def bothScanned : List (Action ℕ) :=
  [.schedule (.newFiber (some (.task 0))), .schedule (.newFiber (some (.task 1))),
    .schedule (.scheduler (some (.fiber 0)) (-1)), .schedule (.scheduler (some (.fiber 1)) (-1)),
    .run 1, .run 2, .scan 1, .scan 2]

/-- Both threads switch into their fibers. -/
def bothEnter : List (Action ℕ) :=
  [.count 1, .count 2, .swapIn 2, .swapIn 1]

theorem reaches_exclusive_inside :
  let s := after (bothScanned ++ [.dispatch 1, .dispatch 2] ++ bothEnter)
  (s.worker 1).pc = .inside .fiber 0 ∧ (s.worker 2).pc = .inside .fiber 1 ∧
    s.Exclusive ∧ s.failed ≠ some .swapIn
  := by
  refine ⟨rfl, rfl, reaches_exclusive ?_⟩
  have hempty : (system ℕ).Reaches ChoosesFree empty := .init empty_initial
  have hscanned : (system ℕ).Reaches ChoosesFree (after bothScanned) :=
    hempty.exec bothScanned (by simp [bothScanned, choosesFree_of_ne]) rfl
  have hone : ChoosesFree (.dispatch 1) (after bothScanned) := by
    have hexec : (system ℕ).exec bothScanned empty = some (after bothScanned) := rfl
    rintro w ⟨⟩
    apply ne_of_chooses rfl (exec_outside hexec)
    decide
  have hdispatch : (system ℕ).Reaches ChoosesFree (after (bothScanned ++ [.dispatch 1])) :=
    hscanned.step hone rfl
  have htwo : ChoosesFree (.dispatch 2) (after (bothScanned ++ [.dispatch 1])) := by
    have hexec : (system ℕ).exec (bothScanned ++ [.dispatch 1]) empty =
      some (after (bothScanned ++ [.dispatch 1])) := rfl
    rintro w ⟨⟩
    apply ne_of_chooses rfl (exec_outside hexec)
    decide
  have hboth : (system ℕ).Reaches ChoosesFree (after (bothScanned ++ [.dispatch 1, .dispatch 2])) :=
    hdispatch.step htwo rfl
  apply hboth.exec bothEnter (by simp [bothEnter, choosesFree_of_ne]) rfl

/-- A fiber queues itself and yields: thread `2` executes it while thread `1` has not yet
switched out of it. Queued twice, it is dequeued twice before the first `swap_in`, and the
second `swap_in` finds `EXEC`. -/
theorem executed_twice :
  (∃ s, (system ℕ).Reachable s ∧ (s.worker 1).pc.executing = some 0 ∧
      (s.worker 2).pc.executing = some 0) ∧
    ∃ s, (system ℕ).Reachable s ∧ s.failed = some .swapIn
  := by
  have hempty : (system ℕ).Reachable empty := .init empty_initial
  constructor
  · exact ⟨_, hempty.exec (scanned ++ [.dispatch 1, .count 1, .swapIn 1,
      .call 1 (.scheduler (some (.fiber 0)) (-1)), .leave 1 (.yieldToReady (.task 0)),
      .run 2, .scan 2, .dispatch 2, .count 2, .swapIn 2]) rfl, rfl, rfl⟩
  · exact ⟨_, hempty.exec (scanned ++ [.schedule (.scheduler (some (.fiber 0)) (-1)), .run 2,
      .scan 2, .dispatch 1, .dispatch 2, .count 1, .count 2, .swapIn 1, .swapIn 2]) rfl, rfl⟩

end Workers

end WbServer
