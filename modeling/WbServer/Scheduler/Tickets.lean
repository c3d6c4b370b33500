import WbServer.Base.Tickets
import WbServer.Scheduler.Workers

/-!
# The queue of the scheduler as a queue with tickets

Every entry that is ever put into `m_fibers` has a ticket. Whatever the threads do, a ticket
is in the queue, in the hands of one thread behind its scan, or has been dispatched once, by a
thread that the entry allows (`TicketWorkers.dispatched_once`); and callbacks that were
scheduled for the same thread are taken in the order in which they were scheduled
(`TicketWorkers.taken_in_order`).
-/

namespace WbServer

variable {κ : Type}

/-- The entry that a thread has taken from the queue and not dispatched yet. -/
def Pc.taken : Pc κ → Option (FiberAndThread κ)
  | .dispatch ft => ft
  | _ => none

/-- The entries that a call appends to the queue. -/
def Call.entries (next : FiberId) : Call κ → List (FiberAndThread κ)
  | .scheduler fc thread => Scheduler.entries next fc thread
  | .newFiber _ => []

/-- The scheduler and its threads, with the tickets of the entries. -/
structure TicketWorkers (κ : Type) extends Workers κ where
  tickets : Tickets ThreadId (FiberAndThread κ)

/-- What an action does to the tickets, in front of the state `t`. -/
def Action.tickets (a : Action κ) (s t : Workers κ) (d : Tickets ThreadId (FiberAndThread κ)) :
    Tickets ThreadId (FiberAndThread κ) :=
  match a with
  | .scan w => d.take w (s.mFibers.findIdx fun it => ¬ it.PassedOver s.heap w)
  | .dispatch w => if t.failed.isSome then d else d.serve w
  | .call _ c => d.arrive (c.entries s.next)
  | .schedule c => d.arrive (c.entries s.next)
  | .requeue w =>
      match (s.worker w).pc with
      | .requeue _ f => d.arrive (Scheduler.entries s.next (some (.fiber f)) (-1))
      | _ => d
  | _ => d

namespace TicketWorkers

/-- A step of the scheduler and its threads, with the tickets. -/
def step (a : Action κ) (s : TicketWorkers κ) : Option (TicketWorkers κ) :=
  (Workers.step a s.toWorkers).map fun t =>
    { toWorkers := t, tickets := a.tickets s.toWorkers t s.tickets }

/-- Before any thread has called `run`. -/
structure Initial (s : TicketWorkers κ) : Prop where
  workers : Workers.Initial s.toWorkers
  tickets : s.tickets = .new s.mFibers

/-- The thread takes the entry at an index of the queue, if there is one. -/
def takeAt (s : TicketWorkers κ) (w : ThreadId) (i : ℕ) : TicketWorkers κ where
  toWorkers := { s.toWorkers with mFibers := s.mFibers.eraseIdx i }.setPc w
    (.dispatch s.mFibers[i]?)
  tickets := s.tickets.take w i

/-- The transition system of a scheduler and its threads, with the tickets. -/
def system (κ : Type) : Transition.System (TicketWorkers κ) (Action κ) where
  init := Initial
  step := step

/-- The callbacks that were scheduled for a thread. -/
def CallbackFor (thread : ℤ) (it : FiberAndThread κ) : Prop :=
  it.thread = thread ∧ ∃ c, it.task = .cb c

/-- The tickets are those of the queue and of the entries that the threads have taken. -/
structure Inv (s : TicketWorkers κ) : Prop where
  exact : s.tickets.Exact
  queue : s.tickets.Queues s.mFibers
  taken : ∀ w, (s.worker w).pc.taken = (s.tickets.held w).bind fun n => s.tickets.entries[n]?
  allowed : ∀ w n, s.tickets.held w = some n ∨ (w, n) ∈ s.tickets.served →
    ∀ it, s.tickets.entries[n]? = some it → it.thread = -1 ∨ it.thread = w
  fifo : ∀ thread, s.tickets.Fifo (CallbackFor thread)

/-- At first there are no tickets. -/
theorem Initial.inv {s : TicketWorkers κ} (h : s.Initial) :
  s.Inv
  := by
  constructor
  case exact => rw [h.tickets]; apply Tickets.exact_new
  case queue => rw [h.tickets]; apply Tickets.queues_new
  case taken =>
    intro w
    rw [h.tickets, h.workers.outside w]
    rfl
  case allowed =>
    intro w n hn
    simp [h.tickets, Tickets.new] at hn
  case fifo =>
    intro thread
    rw [h.tickets]
    apply Tickets.fifo_new

/-- A thread has an entry in its hands as long as it has a ticket. -/
theorem Inv.held_eq_none {s : TicketWorkers κ} (h : s.Inv) {w : ThreadId}
    (hw : (s.worker w).pc.taken = none) :
  s.tickets.held w = none
  := by
  cases hheld : s.tickets.held w with
  | none => rfl
  | some n =>
      have htaken := h.taken w
      have hlt : n < s.tickets.entries.length := h.exact.issued n (.hands w) hheld
      simp [hw, hheld, hlt] at htaken

/-! ### One step -/

/-- The queue and the entries in the hands of the threads stay the same. -/
structure Still (s t : Workers κ) : Prop where
  queue : t.mFibers = s.mFibers
  taken : ∀ w, (t.worker w).pc.taken = (s.worker w).pc.taken

/-- A step that leaves the queue alone leaves the tickets alone. -/
theorem Still.inv {s : TicketWorkers κ} {t : Workers κ} (h : Still s.toWorkers t) (hs : s.Inv) :
  Inv { toWorkers := t, tickets := s.tickets }
  where
  exact := hs.exact
  queue := by
    rw [h.queue]
    apply hs.queue
  taken w := by
    rw [h.taken]
    apply hs.taken w
  allowed := hs.allowed
  fifo := hs.fifo

/-- A thread moves between places at which it has no entry in its hands. -/
theorem still_setPc {s t : Workers κ} (hqueue : t.mFibers = s.mFibers)
    (hworker : ∀ w, (t.worker w).pc = (s.worker w).pc) {w : ThreadId}
    (hw : (s.worker w).pc.taken = none) {pc : Pc κ} (hpc : pc.taken = none) :
  Still s (t.setPc w pc)
  := by
  refine ⟨hqueue, fun w' => ?_⟩
  by_cases hw' : w' = w
  · rw [hw', Workers.setPc_self, hpc, hw]
  · rw [Workers.setPc_of_ne t hw', hworker]

theorem still_fail (s : Workers κ) (a : Assertion) :
  Still s (s.fail a)
  := ⟨rfl, fun _ => rfl⟩

/-- An action that neither appends entries nor takes or dispatches one. -/
def Quiet : Action κ → Prop
  | .scan _ | .dispatch _ | .call _ _ | .requeue _ | .schedule _ => False
  | _ => True

/-- A quiet action leaves the tickets alone. -/
theorem Quiet.tickets {a : Action κ} (ha : Quiet a) (s t : Workers κ)
    (d : Tickets ThreadId (FiberAndThread κ)) :
  a.tickets s t d = d
  := by
  cases a with
  | scan | dispatch | call | requeue | schedule => cases ha
  | _ => rfl

/-- Quiet actions leave the queue alone. -/
theorem Quiet.still {a : Action κ} (ha : Quiet a) {s t : Workers κ}
    (ht : Workers.act a s = some t) :
  Still s t
  := by
  cases a with
  | scan | dispatch | call | requeue | schedule => cases ha
  | run w =>
      obtain ⟨hpc, rfl⟩ := Workers.stepRun_cases ht
      refine ⟨rfl, fun w' => ?_⟩
      by_cases hw' : w' = w
      · simp [hw', hpc, Pc.taken]
      · simp [hw']
  | count w =>
      obtain ⟨b, f, hpc, rfl⟩ := Workers.stepCount_cases ht
      apply still_setPc
      case hqueue => cases b <;> rfl
      case hworker => simp
      case hw => rw [hpc]; rfl
      case hpc => rfl
  | swapIn w =>
      obtain ⟨b, f, hpc, ⟨-, rfl⟩ | rfl | rfl⟩ := Workers.stepSwapIn_cases ht
      · apply still_fail
      · apply still_fail
      · exact still_setPc (by rfl) (fun _ => by rfl) (by rw [hpc]; rfl) (by rfl)
  | leave w e =>
      obtain ⟨b, f, hpc, rfl⟩ := Workers.stepLeave_cases ht
      exact still_setPc (by rfl) (fun _ => by rfl) (by rw [hpc]; rfl) (by rfl)
  | swapOut w =>
      obtain ⟨b, f, ctx, hpc, rfl⟩ := Workers.stepSwapOut_cases ht
      exact still_setPc (by rfl) (fun _ => by rfl) (by rw [hpc]; rfl) (by rfl)
  | uncount w =>
      obtain ⟨b, f, hpc, rfl⟩ := Workers.stepUncount_cases ht
      apply still_setPc
      case hqueue => cases b <;> rfl
      case hworker => simp
      case hw => rw [hpc]; rfl
      case hpc => rfl
  | settle w =>
      obtain ⟨b, f, hpc, hcases⟩ := Workers.stepSettle_cases ht
      have hw : (s.worker w).pc.taken = none := by rw [hpc]; rfl
      obtain ⟨-, rfl⟩ | ⟨-, rfl⟩ | ⟨-, -, rfl⟩ | ⟨-, -, rfl⟩ := hcases
      · exact still_setPc (by rfl) (fun _ => by rfl) hw (by rfl)
      · apply still_setPc
        case hqueue =>
          unfold Workers.holdUnlessFinished
          split <;> rfl
        case hworker => simp
        case hw => apply hw
        case hpc => rfl
      · exact still_setPc (by rfl) (fun _ => by rfl) hw (by rfl)
      · apply still_setPc
        case hqueue => rfl
        case hworker =>
          intro w'
          by_cases hw' : w' = w
          · simp [hw', Workers.setCbFiber, Workers.set]
          · simp [hw', Workers.set]
        case hw => apply hw
        case hpc => rfl
  | setStoping b =>
      obtain rfl := Option.some.inj ht
      exact ⟨rfl, fun _ => rfl⟩
  | setAutoStop b =>
      obtain rfl := Option.some.inj ht
      exact ⟨rfl, fun _ => rfl⟩

/-- Entries arrive. -/
theorem Inv.arrive {s : TicketWorkers κ} (h : s.Inv) {t : Workers κ}
    (xs : List (FiberAndThread κ)) (hqueue : t.mFibers = s.mFibers ++ xs)
    (htaken : ∀ w, (t.worker w).pc.taken = (s.worker w).pc.taken) :
  Inv { toWorkers := t, tickets := s.tickets.arrive xs }
  := by
  -- the tickets in the hands of the threads and those that have been served are old ones
  have hold : ∀ n p, s.tickets.At n p → (s.tickets.entries ++ xs)[n]? = s.tickets.entries[n]? :=
    fun n p hp => List.getElem?_append_left (h.exact.issued n p hp)
  constructor
  case exact => apply h.exact.arrive
  case queue =>
    rw [hqueue]
    apply h.queue.arrive h.exact
  case taken =>
    intro w
    rw [htaken w, h.taken w]
    cases hw : s.tickets.held w with
    | none => simp [hw]
    | some n => simp [hw, hold n (.hands w) hw]
  case allowed =>
    intro w n hn it hit
    simp only [Tickets.entries_arrive] at hit
    obtain hw | hw := hn
    · rw [hold n (.hands w) hw] at hit
      apply h.allowed w n (.inl hw) it hit
    · rw [hold n (.served w) hw] at hit
      apply h.allowed w n (.inr hw) it hit
  case fifo =>
    intro thread
    apply (h.fifo thread).arrive

/-- A thread takes an entry that it may take, and none of those in front of it is a callback
that was scheduled for the same thread. -/
theorem Inv.takeAt {s : TicketWorkers κ} (h : s.Inv) {w : ThreadId}
    (hw : (s.worker w).pc.taken = none) {i : ℕ} {ft : FiberAndThread κ}
    (hat : s.mFibers[i]? = some ft) (hallowed : ft.thread = -1 ∨ ft.thread = w)
    (hpassed : ∀ x ∈ s.mFibers.take i, ¬ CallbackFor ft.thread x) :
  (s.takeAt w i).Inv
  := by
  have hnotHeld := h.held_eq_none hw
  obtain ⟨n, hn, hentry⟩ := h.queue.getElem? hat
  constructor
  case exact => apply h.exact.take hnotHeld
  case queue => apply h.queue.take w hat
  case taken =>
    intro w'
    simp only [TicketWorkers.takeAt, hat]
    rw [Tickets.take_eq hn]
    by_cases hw' : w' = w
    · subst hw'
      simp [Pc.taken, hentry]
    · simpa [hw'] using h.taken w'
  case allowed =>
    intro w' m hm it hit
    simp only [TicketWorkers.takeAt] at hm hit
    rw [Tickets.take_eq hn] at hm hit
    by_cases hw' : w' = w
    · subst hw'
      obtain hm | hm := hm
      · obtain rfl : n = m := by simpa using hm
        obtain rfl := Option.some.inj (hentry.symm.trans hit)
        apply hallowed
      · apply h.allowed w' m (.inr hm) it hit
    · apply h.allowed w' m _ it hit
      simpa [hw'] using hm
  case fifo =>
    intro thread
    apply (h.fifo thread).take h.exact
    rintro m y hm hy ⟨rfl, -⟩ j hj k x hk hx hcallback
    obtain rfl := Option.some.inj (hn.symm.trans hm)
    obtain rfl := Option.some.inj (hentry.symm.trans hy)
    apply hpassed x _ hcallback
    apply List.mem_of_getElem? (i := j)
    rw [List.getElem?_take_of_lt hj]
    exact h.queue.getElem?_of_waiting hk hx

/-- A thread takes an entry. -/
theorem Inv.take {s : TicketWorkers κ} (h : s.Inv) {w : ThreadId}
    (hw : (s.worker w).pc.taken = none) {ft : FiberAndThread κ} {rest : List (FiberAndThread κ)}
    (hscan : scan s.heap w s.mFibers = some (ft, rest)) :
  Inv
    { toWorkers := { s.toWorkers with mFibers := rest }.setPc w (.dispatch (some ft))
      tickets := s.tickets.take w (s.mFibers.findIdx fun it => ¬ it.PassedOver s.heap w) }
  := by
  obtain ⟨pre, post, hqueue, rfl, hpre, hft⟩ := scan_eq_some hscan
  have hindex : (s.mFibers.findIdx fun it => ¬ it.PassedOver s.heap w) = pre.length := by
    have hlength : (pre.findIdx fun it => ¬ it.PassedOver s.heap w) = pre.length :=
      List.findIdx_eq_length_of_false fun it hit => by simp [hpre it hit]
    rw [hqueue, List.findIdx_append, hlength, if_neg (lt_irrefl _)]
    simp [List.findIdx_cons, hft]
  have hat : s.mFibers[pre.length]? = some ft := by simp [hqueue]
  have herase : s.mFibers.eraseIdx pre.length = pre ++ post := by
    rw [hqueue, List.eraseIdx_append_of_length_le le_rfl]
    simp
  have hallowed : ft.thread = -1 ∨ ft.thread = w := by
    -- the scan does not take an entry that is pinned to another thread
    by_contra! hpinned
    apply hft (.inl hpinned)
  have hpassed : ∀ x ∈ s.mFibers.take pre.length, ¬ CallbackFor ft.thread x := by
    rintro x hx ⟨hthread, c, hc⟩
    have hmem : x ∈ pre := by simpa [hqueue] using hx
    obtain hpinned | hexec := hpre x hmem
    · rw [hthread] at hpinned
      apply hft (.inl hpinned)
    · rw [hc] at hexec
      apply hexec
  have htake := h.takeAt hw hat hallowed hpassed
  rw [hindex]
  simpa only [TicketWorkers.takeAt, hat, herase] using htake

/-- A thread dispatches the entry in its hands. -/
theorem Inv.serve {s : TicketWorkers κ} (h : s.Inv) {t : Workers κ} {w : ThreadId}
    (hqueue : t.mFibers = s.mFibers) (hworker : ∀ w' ≠ w, t.worker w' = s.worker w')
    (hw : (t.worker w).pc.taken = none) :
  Inv { toWorkers := t, tickets := s.tickets.serve w }
  := by
  cases hheld : s.tickets.held w with
  | none =>
      rw [Tickets.serve_of_none hheld]
      apply Still.inv _ h
      refine ⟨hqueue, fun w' => ?_⟩
      by_cases hw' : w' = w
      · rw [hw', hw, h.taken w, hheld]
        rfl
      · rw [hworker w' hw']
  | some n =>
      constructor
      case exact => apply h.exact.serve
      case queue =>
        rw [hqueue]
        apply h.queue.serve
      case taken =>
        intro w'
        rw [Tickets.serve_eq hheld]
        by_cases hw' : w' = w
        · simp [hw', hw]
        · simpa [hw', hworker w' hw'] using h.taken w'
      case allowed =>
        intro w' m hm it hit
        rw [Tickets.serve_eq hheld] at hm hit
        obtain hm | hm := hm
        · by_cases hw' : w' = w
          · simp [hw'] at hm
          · apply h.allowed w' m (.inl (by simpa [hw'] using hm)) it hit
        · obtain hm | hm := List.mem_append.mp hm
          · apply h.allowed w' m (.inr hm) it hit
          · obtain ⟨rfl, rfl⟩ := Prod.mk.inj (List.mem_singleton.mp hm)
            apply h.allowed w' m (.inl hheld) it hit
      case fifo =>
        intro thread
        apply (h.fifo thread).serve

/-- A call appends its entries. -/
theorem mFibers_call (s : Scheduler κ) (c : Call κ) :
  (s.call c).mFibers = s.mFibers ++ c.entries s.next
  := by
  cases c with
  | scheduler fc thread => apply Scheduler.schedulerNolock_eq
  | newFiber cb => simp [Scheduler.call, Call.entries]

/-- The choice of the branch: an assertion fails, or the thread has no entry any more. -/
theorem stepDispatch_taken {s t : Workers κ} {w : ThreadId} (ht : s.stepDispatch w = some t) :
  t.mFibers = s.mFibers ∧ (∀ w' ≠ w, t.worker w' = s.worker w') ∧
    ((∃ a, t = s.fail a) ∨ t.failed = s.failed ∧ (t.worker w).pc.taken = none)
  := by
  obtain ⟨ft, hpc, ⟨-, rfl⟩ | ⟨f, thread, -, -, rfl⟩ | ⟨c, thread, -, rfl⟩⟩ :=
    Workers.stepDispatch_cases ht
  · unfold Workers.idleOrBreak
    split
    · refine ⟨rfl, fun w' hw' => Workers.setPc_of_ne s hw' _, .inr ⟨rfl, ?_⟩⟩
      rw [Workers.setPc_self]
      rfl
    · refine ⟨rfl, fun w' hw' => Workers.setPc_of_ne s hw' _, .inr ⟨rfl, ?_⟩⟩
      rw [Workers.setPc_self]
      rfl
  · refine ⟨rfl, fun w' hw' => Workers.setPc_of_ne s hw' _, .inr ⟨rfl, ?_⟩⟩
    rw [Workers.setPc_self]
    rfl
  · obtain ⟨f, -, ⟨-, heq⟩ | ⟨-, heq⟩⟩ | ⟨-, heq⟩ := s.bindCb_cases w c
    · rw [heq]
      refine ⟨rfl, fun w' hw' => Workers.setPc_of_ne _ hw' _, .inr ⟨rfl, ?_⟩⟩
      rw [Workers.setPc_self]
      rfl
    · rw [heq]
      exact ⟨rfl, fun _ _ => rfl, .inl ⟨_, rfl⟩⟩
    · rw [heq]
      refine ⟨rfl, fun w' hw' => Function.update_of_ne hw' _ _, .inr ⟨rfl, ?_⟩⟩
      simp [Pc.taken]

/-- Every step keeps the invariant. -/
theorem Inv.step {a : Action κ} {s s' : TicketWorkers κ} (h : s.Inv)
    (hstep : step a s = some s') :
  s'.Inv
  := by
  obtain ⟨t, ht, rfl⟩ := Option.map_eq_some_iff.mp hstep
  unfold Workers.step at ht
  split at ht
  case isTrue => cases ht
  case isFalse hfailed =>
    by_cases hquiet : Quiet a
    · rw [hquiet.tickets]
      apply (hquiet.still ht).inv h
    · cases a with
      | scan w =>
          obtain ⟨hpc, ⟨hnone, rfl⟩ | ⟨ft, rest, hscan, rfl⟩⟩ := Workers.stepScan_cases ht
          · have hend : (s.mFibers.findIdx fun it => ¬ it.PassedOver s.heap w) =
                s.tickets.waiting.length := by
              rw [h.queue.length]
              apply List.findIdx_eq_length_of_false
              intro it hit
              simpa using scan_eq_none.mp hnone it hit
            have htake : s.tickets.take w s.tickets.waiting.length = s.tickets := by
              simp [Tickets.take]
            have hstill : Still s.toWorkers (s.setPc w (.dispatch none)) :=
              still_setPc (by rfl) (fun _ => by rfl) (by rw [hpc]; rfl) (by rfl)
            simp only [Action.tickets, hend, htake]
            apply hstill.inv h
          · apply h.take (by rw [hpc]; rfl) hscan
      | dispatch w =>
          obtain ⟨hqueue, hworker, ⟨b, rfl⟩ | ⟨hsame, hw⟩⟩ := stepDispatch_taken ht
          · apply (still_fail s.toWorkers b).inv h
          · have hnot : t.failed.isSome = false := by
              rw [hsame]
              simpa using hfailed
            simp only [Action.tickets, hnot]
            apply h.serve hqueue hworker hw
      | call w c =>
          obtain ⟨-, rfl⟩ := Workers.stepCall_cases ht
          apply h.arrive
          · apply mFibers_call
          · exact fun _ => rfl
      | schedule c =>
          obtain rfl := Option.some.inj ht
          apply h.arrive
          · apply mFibers_call
          · exact fun _ => rfl
      | requeue w =>
          obtain ⟨b, f, u, hpc, rfl, hcases⟩ := Workers.stepRequeue_cases ht
          have hqueue : (s.scheduler (some (.fiber f)) (-1)).mFibers =
              s.mFibers ++ Scheduler.entries s.next (some (.fiber f)) (-1) :=
            Scheduler.schedulerNolock_eq s.next s.mFibers (some (.fiber f)) (-1)
          simp only [Action.tickets, hpc]
          apply h.arrive
          · obtain ⟨-, rfl⟩ | ⟨-, rfl⟩ := hcases
            · exact hqueue
            · exact hqueue
          · intro w'
            by_cases hw' : w' = w
            · obtain ⟨-, rfl⟩ | ⟨-, rfl⟩ := hcases
              · rw [hw', Workers.setPc_self, hpc]
                rfl
              · rw [hw', Workers.setPc_self, hpc]
                rfl
            · obtain ⟨-, rfl⟩ | ⟨-, rfl⟩ := hcases
              · rw [Workers.setPc_of_ne _ hw', Workers.setCbFiber_of_ne _ hw']
              · rw [Workers.setPc_of_ne _ hw']
      | _ => exact absurd trivial hquiet

/-- In every reachable state. -/
theorem reachable_inv {s : TicketWorkers κ} (h : (system κ).Reachable s) :
  s.Inv
  := by
  apply h.invariant
  · exact fun _ hs => hs.inv
  · exact fun _ _ _ hs _ hstep => hs.step hstep

/-- Equal entries leave the queue in the order in which they came: a scan passes over both or
over none of them. -/
theorem reachable_fifo {s : TicketWorkers κ} (h : (system κ).Reachable s)
    (ft : FiberAndThread κ) :
  s.tickets.Fifo (· = ft)
  := by
  induction h with
  | init h =>
      rw [h.tickets]
      apply Tickets.fifo_new
  | @step s t a hs _ hstep ih =>
      have hinv := reachable_inv hs
      obtain ⟨t, -, rfl⟩ := Option.map_eq_some_iff.mp hstep
      cases a with
      | scan w =>
          apply ih.take hinv.exact
          rintro n y hn hy rfl j hj m x hm hx rfl
          have hi := hinv.queue.getElem?_of_waiting hn hy
          obtain ⟨hlt, hxi⟩ := List.getElem?_eq_some_iff.mp hi
          obtain ⟨hlt', hxj⟩ := List.getElem?_eq_some_iff.mp
            (hinv.queue.getElem?_of_waiting hm hx)
          have htaken := List.findIdx_getElem (w := hlt)
          have hpassed := List.not_of_lt_findIdx hj
          rw [hxi] at htaken
          rw [hxj] at hpassed
          rw [htaken] at hpassed
          cases hpassed
      | dispatch w =>
          simp only [Action.tickets]
          split
          · exact ih
          · exact ih.serve w
      | call w c => exact ih.arrive _
      | schedule c => exact ih.arrive _
      | requeue w =>
          simp only [Action.tickets]
          split
          · exact ih.arrive _
          · exact ih
      | _ => exact ih

/-- The tickets do not change the steps: every run of the threads has its tickets. -/
theorem exists_tickets {s : Workers κ} (h : (Workers.system κ).Reachable s) :
  ∃ d, (system κ).Reachable { toWorkers := s, tickets := d }
  := by
  induction h with
  | @init s h =>
      use .new s.mFibers
      exact .init ⟨h, rfl⟩
  | step _ _ hstep ih =>
      obtain ⟨d, hd⟩ := ih
      refine ⟨_, hd.step trivial (Option.map_eq_some_iff.mpr ⟨_, hstep, rfl⟩)⟩

/-! ### Every entry is dispatched once -/

theorem taken_eq_some {pc : Pc κ} {it : FiberAndThread κ} :
  pc.taken = some it ↔ pc = .dispatch (some it)
  := by
  cases pc <;> simp [Pc.taken]

/-- The queue holds the entries that wait, in the order in which they came; every entry is in
exactly one place, which is the queue, the hands of one thread, or the list of those that have
been dispatched, where it stands once; and only threads that it allows take it. If the queue
is empty and no thread has an entry in its hands, all of them have been dispatched. -/
theorem dispatched_once {s : TicketWorkers κ} (h : (system κ).Reachable s) :
  s.tickets.Queues s.mFibers ∧ s.tickets.waiting.Pairwise (· < ·) ∧
    (∀ n < s.tickets.entries.length, ∃! p, s.tickets.At n p) ∧
    (∀ w it, (s.worker w).pc = .dispatch (some it) ↔
      ∃ n, s.tickets.At n (.hands w) ∧ s.tickets.entries[n]? = some it) ∧
    (∀ w n it, s.tickets.At n (.hands w) ∨ s.tickets.At n (.served w) →
      s.tickets.entries[n]? = some it → it.thread = -1 ∨ it.thread = w) ∧
    (s.mFibers = [] → (∀ w it, (s.worker w).pc ≠ .dispatch (some it)) →
      (s.tickets.served.map Prod.snd).Perm (List.range s.tickets.entries.length))
  := by
  have hinv := reachable_inv h
  have hdispatch : ∀ w it, (s.worker w).pc = .dispatch (some it) ↔
      ∃ n, s.tickets.At n (.hands w) ∧ s.tickets.entries[n]? = some it := by
    intro w it
    rw [← taken_eq_some, hinv.taken w]
    exact Option.bind_eq_some_iff
  refine ⟨hinv.queue, hinv.exact.sorted, hinv.exact.place, hdispatch, fun w n it hn hit => ?_,
    fun hqueue hhands => ?_⟩
  · apply hinv.allowed w n hn it hit
  · apply hinv.exact.served_perm
    · rw [← List.length_eq_zero_iff, hinv.queue.length, hqueue]
      rfl
    · intro w
      apply hinv.held_eq_none
      rw [Option.eq_none_iff_forall_ne_some]
      intro it hit
      apply hhands w it (taken_eq_some.mp hit)

/-- Two callbacks that were scheduled for the same thread, or both for any thread, are taken
from the queue in the order in which they were scheduled. -/
theorem taken_in_order {s : TicketWorkers κ} (h : (system κ).Reachable s) {m n : ℕ} (hlt : m < n)
    {x y : FiberAndThread κ} (hx : s.tickets.entries[m]? = some x)
    (hy : s.tickets.entries[n]? = some y) (hthread : x.thread = y.thread) {c c' : Code κ}
    (hc : x.task = .cb c) (hc' : y.task = .cb c') (htaken : ¬ s.tickets.At n .queue) :
  ¬ s.tickets.At m .queue
  := by
  intro hm
  apply htaken
  apply (reachable_inv h).fifo y.thread m n x y hlt hx hy ⟨hthread, c, hc⟩ ⟨rfl, c', hc'⟩ hm

/-- Nothing has been scheduled yet. -/
def start : TicketWorkers ℕ where
  toWorkers := Workers.empty
  tickets := .new []

theorem start_reachable :
  (system ℕ).Reachable start
  := .init ⟨Workers.empty_initial, rfl⟩

/-- Two callbacks are scheduled; thread `1` takes the first one, and thread `2` takes and
dispatches the second one. -/
def overtaking : List (Action ℕ) :=
  [.schedule (.scheduler (some (.cb (.task 0))) (-1)),
    .schedule (.scheduler (some (.cb (.task 1))) (-1)), .run 1, .run 2, .scan 1, .scan 2,
    .dispatch 2]

theorem dispatched_once_overtaking :
  ∃ s, (system ℕ).exec overtaking start = some s ∧ s.tickets.At 0 (.hands 1) ∧
    s.tickets.At 1 (.served 2) ∧ ∃! p, s.tickets.At 0 p
  := by
  obtain ⟨s, hs⟩ : ∃ s, (system ℕ).exec overtaking start = some s :=
    Option.isSome_iff_exists.mp rfl
  have hview : ((system ℕ).exec overtaking start).map (fun s =>
      (s.tickets.held 1, s.tickets.served, s.tickets.entries.length)) =
    some (some 0, [(2, 1)], 2) := rfl
  rw [hs, Option.map_some, Option.some_inj, Prod.mk.injEq, Prod.mk.injEq] at hview
  obtain ⟨hheld, hserved, hlength⟩ := hview
  refine ⟨s, hs, hheld, ?_, ?_⟩
  · simp [Tickets.At, hserved]
  · apply (dispatched_once (start_reachable.exec overtaking hs)).2.2.1
    rw [hlength]
    decide

theorem taken_in_order_overtaking :
  ∃ s, (system ℕ).exec overtaking start = some s ∧ ¬ s.tickets.At 0 .queue
  := by
  obtain ⟨s, hs⟩ : ∃ s, (system ℕ).exec overtaking start = some s :=
    Option.isSome_iff_exists.mp rfl
  have hview : ((system ℕ).exec overtaking start).map (fun s =>
      (s.tickets.entries, s.tickets.waiting)) =
    some ([⟨.cb (.task 0), -1⟩, ⟨.cb (.task 1), -1⟩], []) := rfl
  rw [hs, Option.map_some, Option.some_inj, Prod.mk.injEq] at hview
  obtain ⟨hentries, hwaiting⟩ := hview
  have hreachable := start_reachable.exec overtaking hs
  refine ⟨s, hs, taken_in_order (n := 1) hreachable Nat.zero_lt_one (x := ⟨.cb (.task 0), -1⟩)
    (y := ⟨.cb (.task 1), -1⟩) (by rw [hentries]; rfl) (by rw [hentries]; rfl) rfl rfl rfl ?_⟩
  simp [Tickets.At, hwaiting]

end TicketWorkers

end WbServer
