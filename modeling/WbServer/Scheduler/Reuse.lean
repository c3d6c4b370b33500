import WbServer.Scheduler.Exclusive

/-!
# Reuse of the callback fiber

`run` keeps the fiber of a callback that has ended in `cb_fiber`, empties it with `reset`
and puts the next callback into it. An entry of the queue holds the fiber only, not what
the fiber executes.

`TrackedWorkers` numbers the callbacks as they are put into fibers. It records for every
fiber the number of the callback in it, and for every entry the number of the callback that
was in the fiber of the entry when it was made. The thread `w₀` is the only one in `run`.
As long as `run` finds no entry of a callback fiber left in the queue when it empties it
(`TrackedWorkers.Unqueued`), an entry resumes the callback for which it was made
(`TrackedWorkers.reaches_faithful`).
-/

namespace WbServer

variable {κ : Type}

/-! ### The scan of a list of entries with records -/

/-- The scan of the entries of a list of pairs splits the list at the first entry that it
does not pass over. -/
theorem scan_map_fst {α : Type} (heap : FiberId → Fiber κ) (tid : ℤ)
    (es : List (FiberAndThread κ × α)) :
  scan heap tid (es.map Prod.fst) =
    (es.dropWhile fun e => e.1.PassedOver heap tid).head?.map fun e =>
      (e.1, (es.takeWhile (fun e => e.1.PassedOver heap tid) ++
        (es.dropWhile fun e => e.1.PassedOver heap tid).tail).map Prod.fst)
  := by
  induction es with
  | nil => rfl
  | cons e es ih =>
      rw [List.map_cons, scan]
      by_cases he : e.1.PassedOver heap tid
      · rw [if_pos he, ih]
        simp [he, Function.comp_def]
      · simp [he]

/-! ### The records -/

/-- The callbacks by their numbers: the queue with the callback that was in the fiber of an
entry when it was made, the callback of the entry taken last, the callback in each fiber, and
how many there have been. -/
structure Track (κ : Type) where
  entries : List (FiberAndThread κ × Option ℕ)
  taken : Option ℕ
  held : FiberId → Option ℕ
  count : ℕ

namespace Track

/-- The callback in the fiber of an entry. -/
def tag (t : Track κ) (ft : FiberAndThread κ) : Option ℕ :=
  match ft.task with
  | .fiber f => t.held f
  | .cb _ => none

/-- An entry is made. -/
def schedule (t : Track κ) (next : FiberId) (fc : Option (Task κ)) (thread : ℤ) : Track κ :=
  { t with
    entries := t.entries ++ (Scheduler.entries next fc thread).map fun ft => (ft, t.tag ft) }

/-- A callback is put into a fiber. -/
def put (t : Track κ) (f : FiberId) : Track κ :=
  { t with held := Function.update t.held f (some t.count), count := t.count + 1 }

/-- A fiber is emptied. -/
def clear (t : Track κ) (f : FiberId) : Track κ :=
  { t with held := Function.update t.held f none }

/-- A call of a task; a fiber that is constructed without a callback holds none. -/
def call (t : Track κ) (next : FiberId) : Call κ → Track κ
  | .scheduler fc thread => t.schedule next fc thread
  | .newFiber (some _) => t.put next
  | .newFiber none => t

/-- An entry is taken. -/
def scan (t : Track κ) (heap : FiberId → Fiber κ) (tid : ℤ) : Track κ :=
  let passedOver := fun e : FiberAndThread κ × Option ℕ => decide (e.1.PassedOver heap tid)
  match t.entries.dropWhile passedOver with
  | [] => t
  | e :: es => { t with entries := t.entries.takeWhile passedOver ++ es, taken := e.2 }

end Track

/-- What a step records. -/
def Action.track (s : Workers κ) (t : Track κ) : Action κ → Track κ
  | .scan w => t.scan s.heap w
  | .dispatch w =>
      match (s.worker w).pc with
      | .dispatch (some ⟨.cb _, _⟩) =>
          match (s.worker w).cbFiber with
          | some f => if (s.heap f).mState.Resettable then t.put f else t
          | none => t.put s.next
      | _ => t
  | .settle w =>
      match (s.worker w).pc with
      | .settle .cb f =>
          if (s.heap f).mState.Finished then t.clear f else t
      | _ => t
  | .requeue w =>
      match (s.worker w).pc with
      | .requeue _ f => t.schedule s.next (some (.fiber f)) (-1)
      | _ => t
  | .call _ c => t.call s.next c
  | .schedule c => t.call s.next c
  | _ => t

/-- The scheduler, its threads, and the callbacks by their numbers. -/
structure TrackedWorkers (κ : Type) extends Workers κ where
  track : Track κ

namespace Pc

/-- The fiber of the entry that is about to be resumed. -/
def resumes : Pc κ → Option FiberId
  | .dispatch (some ⟨.fiber f, _⟩) => some f
  | .count .fiber f => some f
  | .enter .fiber f => some f
  | _ => none

/-- The fiber in the branch of a callback. -/
def inCb : Pc κ → Option FiberId
  | .count .cb f => some f
  | .enter .cb f => some f
  | .inside .cb f => some f
  | .leaving .cb f _ => some f
  | .back .cb f => some f
  | .settle .cb f => some f
  | .requeue .cb f => some f
  | _ => none

end Pc

namespace TrackedWorkers

/-- A step of the scheduler and its threads, with what it records. -/
def step (a : Action κ) (s : TrackedWorkers κ) : Option (TrackedWorkers κ) :=
  (Workers.step a s.toWorkers).map fun t =>
    { toWorkers := t, track := a.track s.toWorkers s.track }

/-- The records do not change the steps. -/
theorem step_toWorkers (a : Action κ) (s : TrackedWorkers κ) :
  (step a s).map toWorkers = Workers.step a s.toWorkers
  := by
  simp [step, Option.map_map, Function.comp_def]

/-- Before any thread has called `run` and anything has been scheduled. The callbacks in
the fibers that exist have numbers. -/
structure Initial (s : TrackedWorkers κ) : Prop where
  workers : Workers.Initial s.toWorkers
  queue : s.mFibers = []
  entries : s.track.entries = []
  held : ∀ f n, s.track.held f = some n → f < s.next ∧ (s.heap f).isEmpty = false

/-- The transition system of a scheduler and its threads, with the records. -/
def system (κ : Type) : Transition.System (TrackedWorkers κ) (Action κ) where
  init := Initial
  step := step

/-- An entry of the queue that was made for a callback resumes this callback: the callback
is still in the fiber of the entry, which does not start with an empty callback. -/
def Faithful (s : TrackedWorkers κ) : Prop :=
  ∀ w f, (s.worker w).pc = .enter .fiber f → ∀ n, s.track.taken = some n →
    s.track.held f = some n ∧ (s.heap f).isEmpty = false

/-- Only the thread `w₀` executes `run`. -/
def OnlyWorker (w₀ : ThreadId) (a : Action κ) : Prop :=
  ∀ w, a.worker? = some w → w = w₀

/-- No entry of a callback fiber is left in the queue when `run` empties it. -/
def Unqueued (a : Action κ) (s : TrackedWorkers κ) : Prop :=
  ∀ w, a = .settle w → ∀ f, (s.worker w).pc = .settle .cb f → (s.heap f).mState.Finished →
    ∀ thread, ⟨.fiber f, thread⟩ ∉ s.mFibers

/-! ### The invariant -/

/-- What the steps of the thread `w₀` keep as long as they meet the condition. -/
structure Tracks (w₀ : ThreadId) (s : TrackedWorkers κ) : Prop where
  others : ∀ w ≠ w₀, (s.worker w).pc = .outside
  queue : s.mFibers = s.track.entries.map Prod.fst
  entries : ∀ e ∈ s.track.entries, ∀ f, e.1.task = .fiber f →
    ∀ n, e.2 = some n → s.track.held f = some n
  taken : ∀ f, (s.worker w₀).pc.resumes = some f →
    ∀ n, s.track.taken = some n → s.track.held f = some n
  cbFiber : ∀ f, (s.worker w₀).cbFiber = some f →
    f < s.next ∧ (s.track.held f = none ∨ (s.worker w₀).pc.inCb = some f)
  below : ∀ f n, s.track.held f = some n → f < s.next
  full : ∀ f n, s.track.held f = some n →
    (s.heap f).isEmpty = false ∨ ∃ b ctx, (s.worker w₀).pc = .leaving b f ctx
  leaving : ∀ b f ctx, (s.worker w₀).pc = .leaving b f ctx → ctx ≠ .entry

/-- A fiber that is taken from the queue still holds the callback that it was queued with. -/
theorem Tracks.faithful {w₀ : ThreadId} {s : TrackedWorkers κ} (h : s.Tracks w₀) :
  s.Faithful
  := by
  intro w f hpc n hn
  obtain rfl : w = w₀ := by
    by_contra hw
    simp [h.others w hw] at hpc
  have hheld : s.track.held f = some n := h.taken f (by simp [hpc, Pc.resumes]) n hn
  use hheld
  obtain hfull | ⟨b, ctx, hleaving⟩ := h.full f n hheld
  · apply hfull
  · simp [hpc] at hleaving

/-! ### What leaves the invariant alone -/

attribute [local simp] Pc.resumes Pc.inCb

section Pieces

variable {s : TrackedWorkers κ} {w₀ : ThreadId}

/-- A fiber that has not been constructed holds nothing. -/
theorem Tracks.held_next (h : s.Tracks w₀) :
  s.track.held s.next = none
  := by
  cases hnext : s.track.held s.next with
  | none => rfl
  | some n => exact absurd (h.below _ n hnext) (Nat.lt_irrefl _)

/-- The counters and flags do not matter. -/
theorem Tracks.congr (h : s.Tracks w₀) {t : Workers κ} (hworker : t.worker = s.worker)
    (hnext : t.next = s.next) (hqueue : t.mFibers = s.mFibers) (hheap : t.heap = s.heap) :
  Tracks w₀ ⟨t, s.track⟩
  where
  others := hworker ▸ h.others
  queue := hqueue ▸ h.queue
  entries := h.entries
  taken := hworker ▸ h.taken
  cbFiber := hworker ▸ hnext ▸ h.cbFiber
  below := hnext ▸ h.below
  full := hworker ▸ hheap ▸ h.full
  leaving := hworker ▸ h.leaving

/-- A fiber is stored, which is not empty if it holds a callback. -/
theorem Tracks.set (h : s.Tracks w₀) {f : FiberId} {fb : Fiber κ}
    (hfb : ∀ n, s.track.held f = some n →
      fb.isEmpty = false ∨ ∃ b ctx, (s.worker w₀).pc = .leaving b f ctx) :
  Tracks w₀ ⟨s.set f fb, s.track⟩
  where
  others := h.others
  queue := h.queue
  entries := h.entries
  taken := h.taken
  cbFiber := h.cbFiber
  below := h.below
  leaving := h.leaving
  full g n hg := by
    by_cases hgf : g = f
    · simpa [Workers.set, hgf] using hfb n (hgf ▸ hg)
    · simpa [Workers.set, Function.update_of_ne hgf] using h.full g n hg

/-- The thread changes its place and its variables. -/
theorem Tracks.setWorker (h : s.Tracks w₀) {wk : Worker κ}
    (hresumes : ∀ f, wk.pc.resumes = some f →
      ∀ n, s.track.taken = some n → s.track.held f = some n)
    (hcb : ∀ f, wk.cbFiber = some f →
      f < s.next ∧ (s.track.held f = none ∨ wk.pc.inCb = some f))
    (hfull : ∀ b f ctx, (s.worker w₀).pc = .leaving b f ctx → (s.heap f).isEmpty = false)
    (hleaving : ∀ b f ctx, wk.pc = .leaving b f ctx → ctx ≠ .entry) :
  Tracks w₀ ⟨{ s.toWorkers with worker := Function.update s.worker w₀ wk }, s.track⟩
  where
  others w hw := by simpa [Function.update_of_ne hw] using h.others w hw
  queue := h.queue
  entries := h.entries
  taken := by simpa using hresumes
  cbFiber := by simpa using hcb
  below := h.below
  leaving := by simpa using hleaving
  full f n hn := by
    obtain hf | ⟨b, ctx, hpc⟩ := h.full f n hn
    · exact .inl hf
    · exact .inl (hfull b f ctx hpc)

/-- The thread goes on in the same branch. -/
theorem Tracks.goOn (h : s.Tracks w₀) {pc pc' : Pc κ} (hpc : (s.worker w₀).pc = pc)
    (hresumes : ∀ f, pc'.resumes = some f → pc.resumes = some f)
    (hinCb : ∀ f, pc.inCb = some f → pc'.inCb = some f)
    (hfull : ∀ b f ctx, pc = .leaving b f ctx → (s.heap f).isEmpty = false)
    (hleaving : ∀ b f ctx, pc' = .leaving b f ctx → ctx ≠ .entry) :
  Tracks w₀ ⟨s.setPc w₀ pc', s.track⟩
  := by
  apply h.setWorker
  · intro f hf
    apply h.taken f
    rw [hpc]
    apply hresumes f hf
  · intro f hf
    obtain ⟨hlt, hheld⟩ := h.cbFiber f hf
    use hlt
    rw [hpc] at hheld
    apply hheld.imp_right (hinCb f)
  · exact fun b f ctx hl => hfull b f ctx (hpc ▸ hl)
  · apply hleaving

/-- The thread goes back to the head of the loop from a branch in which it has given up or
emptied the fiber of the callback. -/
theorem Tracks.goHead (h : s.Tracks w₀)
    (hcb : ∀ f, (s.worker w₀).cbFiber = some f → s.track.held f = none)
    (hfull : ∀ b f ctx, (s.worker w₀).pc ≠ .leaving b f ctx) :
  Tracks w₀ ⟨s.setPc w₀ .head, s.track⟩
  := by
  apply h.setWorker
  · simp
  · exact fun f hf => ⟨(h.cbFiber f hf).1, .inl (hcb f hf)⟩
  · exact fun b f ctx hl => absurd hl (hfull b f ctx)
  · simp

theorem Tracks.forgetCbFiber (h : s.Tracks w₀)
    (hfull : ∀ b f ctx, (s.worker w₀).pc ≠ .leaving b f ctx) :
  Tracks w₀ ⟨s.setCbFiber w₀ none, s.track⟩
  := by
  apply h.setWorker
  · apply h.taken
  · simp
  · exact fun b f ctx hl => absurd hl (hfull b f ctx)
  · apply h.leaving

/-- An entry is made. -/
theorem Tracks.schedule (h : s.Tracks w₀) (fc : Option (Task κ)) (thread : ℤ) :
  Tracks w₀ ⟨{ s.toWorkers with toScheduler := s.toScheduler.scheduler fc thread },
    s.track.schedule s.next fc thread⟩
  where
  others := h.others
  queue := by
    simp [Scheduler.scheduler, Scheduler.schedulerNolock_eq, Track.schedule, h.queue,
      Function.comp_def]
  entries e he f hf n hn := by
    obtain he | he := List.mem_append.mp he
    · apply h.entries e he f hf n hn
    · obtain ⟨⟨task, t⟩, -, rfl⟩ := List.mem_map.mp he
      obtain rfl : task = .fiber f := hf
      apply hn
  taken := h.taken
  cbFiber := h.cbFiber
  below := h.below
  full := h.full
  leaving := h.leaving

/-- A callback is put into a fiber without one. -/
theorem Tracks.put (h : s.Tracks w₀) {f : FiberId} (hf : f < s.next)
    (hheld : s.track.held f = none) (hfull : (s.heap f).isEmpty = false)
    (hcb : (s.worker w₀).cbFiber = some f → (s.worker w₀).pc.inCb = some f) :
  Tracks w₀ ⟨s.toWorkers, s.track.put f⟩
  := by
  have hother : ∀ g n, s.track.held g = some n → (s.track.put f).held g = some n := by
    intro g n hg
    have hgf : g ≠ f := by
      rintro rfl
      simp [hheld] at hg
    simpa [Track.put, Function.update_of_ne hgf] using hg
  constructor
  case others => apply h.others
  case queue => apply h.queue
  case entries => exact fun e he g hg n hn => hother g n (h.entries e he g hg n hn)
  case taken => exact fun g hg n hn => hother g n (h.taken g hg n hn)
  case leaving => apply h.leaving
  case cbFiber =>
    intro g hg
    by_cases hgf : g = f
    · exact ⟨hgf ▸ hf, .inr (hgf ▸ hcb (hgf ▸ hg))⟩
    · simpa [Track.put, Function.update_of_ne hgf] using h.cbFiber g hg
  case below =>
    intro g n hn
    by_cases hgf : g = f
    · apply hgf ▸ hf
    · apply h.below g n
      simpa [Track.put, Function.update_of_ne hgf] using hn
  case full =>
    intro g n hn
    by_cases hgf : g = f
    · exact .inl (hgf ▸ hfull)
    · apply h.full g n
      simpa [Track.put, Function.update_of_ne hgf] using hn

/-- A fiber is emptied to which no entry refers. -/
theorem Tracks.clear (h : s.Tracks w₀) {f : FiberId}
    (hentries : ∀ e ∈ s.track.entries, e.1.task ≠ .fiber f)
    (hresumes : (s.worker w₀).pc.resumes ≠ some f) :
  Tracks w₀ ⟨s.toWorkers, s.track.clear f⟩
  := by
  have hother : ∀ g n, g ≠ f → s.track.held g = some n → (s.track.clear f).held g = some n := by
    intro g n hgf hg
    simpa [Track.clear, Function.update_of_ne hgf] using hg
  have hheld : ∀ g n, (s.track.clear f).held g = some n → s.track.held g = some n := by
    intro g n hg
    have hgf : g ≠ f := by
      rintro rfl
      simp [Track.clear] at hg
    simpa [Track.clear, Function.update_of_ne hgf] using hg
  constructor
  case others => apply h.others
  case queue => apply h.queue
  case leaving => apply h.leaving
  case entries =>
    intro e he g hg n hn
    apply hother g n _ (h.entries e he g hg n hn)
    rintro rfl
    apply hentries e he hg
  case taken =>
    intro g hg n hn
    apply hother g n _ (h.taken g hg n hn)
    rintro rfl
    apply hresumes hg
  case cbFiber =>
    intro g hg
    by_cases hgf : g = f
    · exact ⟨(h.cbFiber g hg).1, .inl (by simp [Track.clear, hgf])⟩
    · simpa [Track.clear, Function.update_of_ne hgf] using h.cbFiber g hg
  case below => exact fun g n hn => h.below g n (hheld g n hn)
  case full => exact fun g n hn => h.full g n (hheld g n hn)

/-- A fiber is constructed. -/
theorem Tracks.alloc (h : s.Tracks w₀) (cb : Option (Code κ)) :
  Tracks w₀ ⟨{ s.toWorkers with
    heap := Function.update s.heap s.next (Fiber.new cb), next := s.next + 1 }, s.track⟩
  where
  others := h.others
  queue := h.queue
  entries := h.entries
  taken := h.taken
  cbFiber f hf := (h.cbFiber f hf).imp_left Nat.lt_succ_of_lt
  below f n hn := Nat.lt_succ_of_lt (h.below f n hn)
  leaving := h.leaving
  full f n hn := by
    have hne : f ≠ s.next := Nat.ne_of_lt (h.below f n hn)
    simpa [Function.update_of_ne hne] using h.full f n hn

end Pieces

/-! ### The steps -/

section Steps

variable {s : TrackedWorkers κ} {w₀ : ThreadId}

/-- The thread enters `run()` and constructs its idle fiber. -/
theorem Tracks.run (h : s.Tracks w₀) {t : Workers κ} (hstep : s.stepRun w₀ = some t) :
  Tracks w₀ ⟨t, s.track⟩
  := by
  rcases Workers.stepRun_cases hstep with ⟨hpc, rfl⟩
  apply (h.alloc (some .idle)).setWorker
  · simp
  · simp
  · simp [hpc]
  · simp

/-- An entry is taken from the queue. -/
theorem Tracks.take (h : s.Tracks w₀) {pre es : List (FiberAndThread κ × Option ℕ)}
    {e : FiberAndThread κ × Option ℕ} (hentries : s.track.entries = pre ++ e :: es)
    (hpc : (s.worker w₀).pc = .head) :
  Tracks w₀ ⟨{ s.toWorkers with mFibers := (pre ++ es).map Prod.fst },
    { s.track with entries := pre ++ es, taken := e.2 }⟩
  where
  others := h.others
  queue := rfl
  entries e' he' := by
    apply h.entries e'
    rw [hentries]
    simp only [List.mem_append, List.mem_cons] at he' ⊢
    tauto
  taken := by simp [hpc]
  cbFiber := h.cbFiber
  below := h.below
  full := h.full
  leaving := h.leaving

/-- It takes an entry, with the callback that its fiber holds. -/
theorem Tracks.scan (h : s.Tracks w₀) {t : Workers κ} (hstep : s.stepScan w₀ = some t) :
  Tracks w₀ ⟨t, s.track.scan s.heap w₀⟩
  := by
  have hsplit := scan_map_fst s.heap w₀ s.track.entries
  rw [← h.queue] at hsplit
  rcases Workers.stepScan_cases hstep with ⟨hpc, ⟨hscan, rfl⟩ | ⟨ft, rest, hscan, rfl⟩⟩
  · rw [hscan] at hsplit
    have hnil := List.head?_eq_none_iff.mp (Option.map_eq_none_iff.mp hsplit.symm)
    simp only [Track.scan, hnil]
    apply h.goOn hpc
    · simp
    · simp
    · simp
    · simp
  · rw [hscan] at hsplit
    obtain ⟨e, he, heq⟩ := Option.map_eq_some_iff.mp hsplit.symm
    obtain ⟨es, hes⟩ := List.head?_eq_some_iff.mp he
    obtain ⟨rfl, rfl⟩ := Prod.mk.inj heq
    simp only [Track.scan, hes, List.tail_cons]
    have hentries : s.track.entries =
        s.track.entries.takeWhile (fun e => e.1.PassedOver s.heap w₀) ++ e :: es := by
      rw [← hes, List.takeWhile_append_dropWhile]
    have hmem : e ∈ s.track.entries := by
      rw [hentries]
      apply List.mem_append_right _ List.mem_cons_self
    apply (h.take hentries hpc).setWorker
    · intro f hf n hn
      apply h.entries e hmem f _ n hn
      obtain ⟨⟨task, thread⟩, tag⟩ := e
      cases task with
      | fiber g => exact congrArg Task.fiber (Option.some.inj hf)
      | cb c => cases hf
    · intro f hf
      obtain ⟨hlt, hheld⟩ := h.cbFiber f hf
      exact ⟨hlt, .inl (by simpa [hpc] using hheld)⟩
    · simp [hpc]
    · simp

/-- It chooses its idle fiber, or leaves the loop. -/
theorem Tracks.idleOrBreak (h : s.Tracks w₀) {ft : Option (FiberAndThread κ)}
    (hpc : (s.worker w₀).pc = .dispatch ft) :
  Tracks w₀ ⟨s.toWorkers.idleOrBreak w₀, s.track⟩
  := by
  unfold Workers.idleOrBreak
  split
  · apply h.goOn hpc
    · simp
    · simp
    · simp
    · simp
  · apply h.goOn hpc
    · simp
    · simp
    · simp
    · simp

/-- It binds a callback to a fiber that holds nothing. -/
theorem Tracks.bindCb (h : s.Tracks w₀) {ft : Option (FiberAndThread κ)}
    (hpc : (s.worker w₀).pc = .dispatch ft) (c : Code κ) :
  Tracks w₀ ⟨s.toWorkers.bindCb w₀ c, match (s.worker w₀).cbFiber with
    | some f => if (s.heap f).mState.Resettable then s.track.put f else s.track
    | none => s.track.put s.next⟩
  := by
  obtain ⟨f, hcb, ⟨hreset, hs'⟩ | ⟨hreset, hs'⟩⟩ | ⟨hcb, hs'⟩ :=
    Workers.bindCb_cases s.toWorkers w₀ c <;> rw [hs', hcb]
  · obtain ⟨hlt, hheld⟩ := h.cbFiber f hcb
    have hheld : s.track.held f = none := by simpa [hpc] using hheld
    have hset : Tracks w₀ ⟨s.set f (Fiber.new (some c)), s.track⟩ :=
      h.set fun _ _ => .inl rfl
    have hcount : Tracks w₀
        ⟨(s.set f (Fiber.new (some c))).setPc w₀ (.count .cb f), s.track⟩ := by
      apply hset.goOn hpc
      · simp
      · simp
      · simp
      · simp
    simp only [if_pos hreset]
    apply hcount.put hlt hheld
    · simp [Workers.setPc, Workers.set, Fiber.new, Fiber.isEmpty]
    · simp
  · simp only [if_neg hreset]
    apply h.congr <;> rfl
  · have hworker : Tracks w₀ ⟨{ s.toWorkers with
        heap := Function.update s.heap s.next (Fiber.new (some c))
        next := s.next + 1
        worker := Function.update s.worker w₀
          { s.worker w₀ with pc := .count .cb s.next, cbFiber := some s.next } }, s.track⟩ := by
      apply (h.alloc (some c)).setWorker
      · simp
      · simp
      · simp [hpc]
      · simp
    apply hworker.put
    · simp
    · apply h.held_next
    · simp [Fiber.new, Fiber.isEmpty]
    · simp

/-- It chooses a branch. -/
theorem Tracks.dispatch (h : s.Tracks w₀) {t : Workers κ} (hstep : s.stepDispatch w₀ = some t) :
  Tracks w₀ ⟨t, (Action.dispatch w₀).track s.toWorkers s.track⟩
  := by
  rcases Workers.stepDispatch_cases hstep with ⟨ft, hpc, hs'⟩
  rcases hs' with ⟨hft, rfl⟩ | ⟨f, thread, rfl, hfinished, rfl⟩ | ⟨c, thread, rfl, rfl⟩
  · match ft with
    | none =>
        simp only [Action.track, hpc]
        apply h.idleOrBreak hpc
    | some ⟨.fiber f, thread⟩ =>
        simp only [Action.track, hpc]
        apply h.idleOrBreak hpc
    | some ⟨.cb c, thread⟩ => apply absurd trivial (hft _ rfl)
  · simp only [Action.track, hpc]
    apply h.goOn hpc
    · simp
    · simp
    · simp
    · simp
  · simp only [Action.track, hpc]
    apply h.bindCb hpc

/-- A call of the scheduler queues a fiber with what it holds. -/
theorem Tracks.call (h : s.Tracks w₀) (c : Call κ) :
  Tracks w₀ ⟨{ s.toWorkers with toScheduler := s.toScheduler.call c }, s.track.call s.next c⟩
  := by
  match c with
  | .scheduler fc thread => apply h.schedule
  | .newFiber (some cb) =>
      apply (h.alloc (some cb)).put
      · simp
      · apply h.held_next
      · simp [Fiber.new, Fiber.isEmpty]
      · intro hcb
        exact absurd (h.cbFiber _ hcb).1 (Nat.lt_irrefl _)
  | .newFiber none => apply h.alloc

/-- A task ends or yields. -/
theorem Tracks.leave (h : s.Tracks w₀) {e : Ending κ} {t : Workers κ}
    (hstep : s.stepLeave w₀ e = some t) :
  Tracks w₀ ⟨t, s.track⟩
  := by
  rcases Workers.stepLeave_cases hstep with ⟨b, f, hpc, rfl⟩
  -- `MainFunc` clears `m_cb` before the context is saved, which `full` allows while leaving
  have hleaving : Tracks w₀ ⟨s.setPc w₀ (.leaving b f (e.write (s.heap f)).2), s.track⟩ := by
    apply h.goOn hpc
    · simp
    · cases b <;> simp
    · simp
    · rintro _ _ _ ⟨⟩
      cases e <;> simp [Ending.write]
  apply hleaving.set
  intro _ _
  apply Or.inr
  simp

theorem Tracks.swapOut (h : s.Tracks w₀) {t : Workers κ} (hstep : s.stepSwapOut w₀ = some t) :
  Tracks w₀ ⟨t, s.track⟩
  := by
  rcases Workers.stepSwapOut_cases hstep with ⟨b, f, ctx, hpc, rfl⟩
  have hctx : ((s.heap f).swapOut ctx).isEmpty = false := by
    have hentry := h.leaving b f ctx hpc
    cases ctx with
    | entry => apply absurd rfl hentry
    | suspended c => rfl
    | finished => rfl
  have hset : Tracks w₀ ⟨s.set f ((s.heap f).swapOut ctx), s.track⟩ :=
    h.set fun _ _ => .inl hctx
  apply hset.goOn hpc
  · simp
  · cases b <;> simp
  · rintro _ g _ ⟨⟩
    simp [Workers.set, hctx]
  · simp

/-- The thread looks at the state of the fiber that has come back. It resets none that is queued.
-/
theorem Tracks.settle (h : s.Tracks w₀) {t : Workers κ} (hok : s.Unqueued (.settle w₀))
    (hstep : s.stepSettle w₀ = some t) :
  Tracks w₀ ⟨t, (Action.settle w₀).track s.toWorkers s.track⟩
  := by
  rcases Workers.stepSettle_cases hstep with ⟨b, f, hpc, hs'⟩
  have hsame : (b = .cb → ¬ (s.heap f).mState.Finished) →
      (Action.settle w₀).track s.toWorkers s.track = s.track := by
    intro hfinished
    cases b with
    | cb => simp [Action.track, hpc, hfinished rfl]
    | fiber => simp [Action.track, hpc]
    | idle => simp [Action.track, hpc]
  have hhold : Tracks w₀ ⟨s.set f (s.heap f).setHold, s.track⟩ := h.set (h.full f)
  rcases hs' with ⟨hready, rfl⟩ | ⟨hb, rfl⟩ | ⟨rfl, hfinished, rfl⟩ | ⟨rfl, hfinished, rfl⟩
  · rw [hsame (fun _ => by simp [hready])]
    apply h.goOn hpc
    · simp
    · cases b <;> simp
    · simp
    · simp
  · rw [hsame (absurd · hb)]
    have hworker : Tracks w₀ ⟨s.toWorkers.holdUnlessFinished f, s.track⟩ := by
      unfold Workers.holdUnlessFinished
      split
      · apply h
      · apply hhold
    have hinCb : ∀ g, (s.worker w₀).pc.inCb ≠ some g := by
      cases b with
      | cb => apply absurd rfl hb
      | fiber => simp [hpc]
      | idle => simp [hpc]
    apply hworker.goHead
    · intro g hg
      simp only [Workers.holdUnlessFinished_worker] at hg
      apply (h.cbFiber g hg).2.resolve_right (hinCb g)
    · simp [hpc]
  · have hentries : ∀ e ∈ s.track.entries, e.1.task ≠ .fiber f := by
      rintro ⟨⟨task, thread⟩, tag⟩ he rfl
      apply hok w₀ rfl f hpc hfinished thread
      rw [h.queue]
      apply List.mem_map_of_mem he
    have hclear : Tracks w₀ ⟨s.toWorkers, s.track.clear f⟩ := h.clear hentries (by simp [hpc])
    have hempty : Tracks w₀ ⟨s.set f (Fiber.new none), s.track.clear f⟩ :=
      hclear.set (by simp [Track.clear])
    simp only [Action.track, hpc, hfinished, if_true]
    apply hempty.goHead
    · intro g hg
      apply (hempty.cbFiber g hg).2.elim id
      intro hinCb
      obtain rfl : f = g := by simpa [Workers.set, hpc] using hinCb
      simp [Track.clear]
    · simp [Workers.set, hpc]
  · rw [hsame (fun _ => hfinished)]
    have hforget : Tracks w₀ ⟨(s.set f (s.heap f).setHold).setCbFiber w₀ none, s.track⟩ :=
      hhold.forgetCbFiber (by simp [Workers.set, hpc])
    apply hforget.goHead
    · simp [Workers.setCbFiber]
    · simp [Workers.setCbFiber, Workers.set, hpc]

/-- A fiber that is ready again is queued with what it holds. -/
theorem Tracks.requeue (h : s.Tracks w₀) {t : Workers κ} (hstep : s.stepRequeue w₀ = some t) :
  Tracks w₀ ⟨t, (Action.requeue w₀).track s.toWorkers s.track⟩
  := by
  rcases Workers.stepRequeue_cases hstep with ⟨b, f, u, hpc, hu, hs'⟩
  simp only [Action.track, hpc]
  have hpush : Tracks w₀ ⟨u, s.track.schedule s.next (some (.fiber f)) (-1)⟩ :=
    hu ▸ h.schedule (some (.fiber f)) (-1)
  have hpcu : (u.worker w₀).pc = .requeue b f := by simp [hu, hpc]
  rcases hs' with ⟨-, rfl⟩ | ⟨hb, rfl⟩
  · have hforget : Tracks w₀ ⟨u.setCbFiber w₀ none, _⟩ := hpush.forgetCbFiber (by simp [hpcu])
    apply hforget.goHead
    · simp [Workers.setCbFiber]
    · simp [Workers.setCbFiber, hpcu]
  · apply hpush.goHead
    · intro g hg
      obtain ⟨-, hheld⟩ := hpush.cbFiber g hg
      apply hheld.resolve_right
      cases b with
      | cb => apply absurd rfl hb
      | fiber => simp [hpcu]
      | idle => simp [hpcu]
    · simp [hpcu]

theorem Tracks.count (h : s.Tracks w₀) {t : Workers κ} (hstep : s.stepCount w₀ = some t) :
  Tracks w₀ ⟨t, s.track⟩
  := by
  rcases Workers.stepCount_cases hstep with ⟨b, f, hpc, rfl⟩
  have hcount : Tracks w₀ ⟨s.increment b, s.track⟩ := by
    cases b <;> apply h.congr <;> rfl
  have hpc' : ((s.increment b).worker w₀).pc = .count b f := by simpa using hpc
  apply hcount.goOn hpc'
  · cases b <;> simp
  · cases b <;> simp
  · simp
  · simp

theorem Tracks.swapIn (h : s.Tracks w₀) {t : Workers κ} (hstep : s.stepSwapIn w₀ = some t) :
  Tracks w₀ ⟨t, s.track⟩
  := by
  rcases Workers.stepSwapIn_cases hstep with ⟨b, f, hpc, ⟨-, rfl⟩ | rfl | rfl⟩
  · apply h.congr <;> rfl
  · apply h.congr <;> rfl
  · have hset : Tracks w₀ ⟨s.set f { s.heap f with mState := .exec }, s.track⟩ :=
      h.set (h.full f)
    apply hset.goOn hpc
    · simp
    · cases b <;> simp
    · simp
    · simp

theorem Tracks.uncount (h : s.Tracks w₀) {t : Workers κ} (hstep : s.stepUncount w₀ = some t) :
  Tracks w₀ ⟨t, s.track⟩
  := by
  rcases Workers.stepUncount_cases hstep with ⟨b, f, hpc, rfl⟩
  have hcount : Tracks w₀ ⟨s.decrement b, s.track⟩ := by
    cases b <;> apply h.congr <;> rfl
  have hpc' : ((s.decrement b).worker w₀).pc = .back b f := by simpa using hpc
  apply hcount.goOn hpc'
  · simp
  · cases b <;> simp
  · simp
  · simp

/-- Every step of the thread that meets the condition. -/
theorem Tracks.act (h : s.Tracks w₀) {a : Action κ} (hworker : OnlyWorker w₀ a)
    (hok : s.Unqueued a) {t : Workers κ} (hstep : Workers.act a s.toWorkers = some t) :
  Tracks w₀ ⟨t, a.track s.toWorkers s.track⟩
  := by
  cases a with
  | run w =>
      obtain rfl := hworker w rfl
      apply h.run hstep
  | scan w =>
      obtain rfl := hworker w rfl
      apply h.scan hstep
  | dispatch w =>
      obtain rfl := hworker w rfl
      apply h.dispatch hstep
  | count w =>
      obtain rfl := hworker w rfl
      apply h.count hstep
  | swapIn w =>
      obtain rfl := hworker w rfl
      apply h.swapIn hstep
  | call w c =>
      rcases Workers.stepCall_cases hstep with ⟨-, rfl⟩
      apply h.call
  | leave w e =>
      obtain rfl := hworker w rfl
      apply h.leave hstep
  | swapOut w =>
      obtain rfl := hworker w rfl
      apply h.swapOut hstep
  | uncount w =>
      obtain rfl := hworker w rfl
      apply h.uncount hstep
  | settle w =>
      obtain rfl := hworker w rfl
      apply h.settle hok hstep
  | requeue w =>
      obtain rfl := hworker w rfl
      apply h.requeue hstep
  | schedule c =>
      obtain rfl := Option.some.inj hstep
      apply h.call
  | setStoping b =>
      obtain rfl := Option.some.inj hstep
      apply h.congr <;> rfl
  | setAutoStop b =>
      obtain rfl := Option.some.inj hstep
      apply h.congr <;> rfl

end Steps

/-- In every state that is reached under the condition. -/
theorem reaches_tracks {w₀ : ThreadId} {s : TrackedWorkers κ}
    (h : (system κ).Reaches (fun a s => OnlyWorker w₀ a ∧ s.Unqueued a) s) :
  s.Tracks w₀
  := by
  apply h.invariant
  · intro s hs
    constructor
    case others => exact fun w _ => hs.workers.outside w
    case queue => simp [hs.queue, hs.entries]
    case entries => simp [hs.entries]
    case taken => simp [hs.workers.outside w₀]
    case cbFiber => simp [hs.workers.cbFiber w₀]
    case below => exact fun f n hn => (hs.held f n hn).1
    case full => exact fun f n hn => .inl (hs.held f n hn).2
    case leaving => simp [hs.workers.outside w₀]
  · rintro a s s' hs ⟨hworker, hok⟩ hstep
    obtain ⟨t, ht, rfl⟩ := Option.map_eq_some_iff.mp hstep
    simp only [Workers.step] at ht
    split at ht
    · cases ht
    · apply hs.act hworker hok ht

/-- With one thread in `run`, and as long as no entry of a callback fiber is left in the
queue when `run` empties it, an entry resumes the callback for which it was made. -/
theorem reaches_faithful {w₀ : ThreadId} {s : TrackedWorkers κ}
    (h : (system κ).Reaches (fun a s => OnlyWorker w₀ a ∧ s.Unqueued a) s) :
  s.Faithful
  := (reaches_tracks h).faithful

/-- A step other than the one that empties a callback fiber. -/
theorem unqueued_of_ne {a : Action κ} (ha : ∀ w, a ≠ .settle w) (s : TrackedWorkers κ) :
  s.Unqueued a
  := fun w h => absurd h (ha w)

/-- Nothing is queued and no thread is in `run`. -/
def empty : TrackedWorkers ℕ where
  toWorkers := Workers.empty
  track := { entries := [], taken := none, held := fun _ => none, count := 0 }

theorem empty_initial :
  Initial empty
  where
  workers := Workers.empty_initial
  queue := rfl
  entries := rfl
  held := by simp [empty]

/-- The state after some steps from the empty scheduler. -/
def after (as : List (Action ℕ)) : TrackedWorkers ℕ :=
  ((system ℕ).exec as empty).getD empty

/-- Thread `1` takes a task from the queue and is about to switch into its fiber. -/
def takes : List (Action ℕ) :=
  [.scan 1, .dispatch 1, .count 1]

/-- A callback, in fiber `1`, schedules its fiber and ends its segment. -/
def schedulesItself (e : Ending ℕ) : List (Action ℕ) :=
  [.swapIn 1, .call 1 (.scheduler (some (.fiber 1)) (-1)), .leave 1 e, .swapOut 1, .uncount 1]

/-- Two callbacks are queued and thread `1` is in `run`. -/
def started : List (Action ℕ) :=
  [.schedule (.scheduler (some (.cb (.task 0))) (-1)),
    .schedule (.scheduler (some (.cb (.task 1))) (-1)), .run 1]

/-- The first callback has scheduled its fiber and is put on `HOLD`. -/
def held : List (Action ℕ) :=
  started ++ takes ++ schedulesItself (.yeidToHold (.task 2))

/-- The second callback has returned. -/
def ended : List (Action ℕ) :=
  held ++ [.settle 1] ++ takes ++ [.swapIn 1, .leave 1 .ret, .swapOut 1, .uncount 1]

/-- The fiber of the second callback is emptied, and the entry of the first one taken. -/
theorem reaches_faithful_held :
  let s := after (ended ++ [.settle 1] ++ takes)
  (s.worker 1).pc = .enter .fiber 1 ∧ s.track.taken = some 0 ∧ s.Faithful
  := by
  let ok : Action ℕ → TrackedWorkers ℕ → Prop := fun a s => OnlyWorker 1 a ∧ s.Unqueued a
  have hempty : (system ℕ).Reaches ok empty := .init empty_initial
  have hsteps : ∀ as : List (Action ℕ), (∀ a ∈ as, OnlyWorker 1 a ∧ ∀ w, a ≠ .settle w) →
      ∀ a ∈ as, ∀ s : TrackedWorkers ℕ, ok a s :=
    fun as has a ha s => ⟨(has a ha).1, unqueued_of_ne (has a ha).2 s⟩
  have hsettle : OnlyWorker 1 (.settle 1 : Action ℕ) := by simp [OnlyWorker, Action.worker?]
  have hheld : (system ℕ).Reaches ok (after held) := by
    apply hempty.exec held (hsteps held _) rfl
    simp [held, started, takes, schedulesItself, OnlyWorker, Action.worker?]
  have hunqueued : (after held).Unqueued (.settle 1) := by
    rintro w ⟨⟩ f hpc hfinished
    cases hpc
    exact absurd hfinished (by decide)
  have hsettled : (system ℕ).Reaches ok (after (held ++ [.settle 1])) :=
    hheld.step ⟨hsettle, hunqueued⟩ rfl
  have hended : (system ℕ).Reaches ok (after ended) := by
    apply hsettled.exec (takes ++ [.swapIn 1, .leave 1 .ret, .swapOut 1, .uncount 1])
      (hsteps _ _) rfl
    simp [takes, OnlyWorker, Action.worker?]
  have hunqueued' : (after ended).Unqueued (.settle 1) := by
    have hqueue : (after ended).mFibers = [⟨.fiber 1, -1⟩] := rfl
    have hcb : ((after ended).worker 1).pc = .settle .cb 2 := rfl
    rintro w ⟨⟩ f hpc - thread
    obtain ⟨-, rfl⟩ : Branch.cb = .cb ∧ 2 = f := Pc.settle.inj (hcb.symm.trans hpc)
    simp [hqueue]
  have hemptied : (system ℕ).Reaches ok (after (ended ++ [.settle 1])) :=
    hended.step ⟨hsettle, hunqueued'⟩ rfl
  have htaken : (system ℕ).Reaches ok (after (ended ++ [.settle 1] ++ takes)) := by
    apply hemptied.exec takes (hsteps _ _) rfl
    simp [takes, OnlyWorker, Action.worker?]
  exact ⟨rfl, rfl, reaches_faithful htaken⟩

/-- The first callback has scheduled its fiber and returned. -/
def returned : List (Action ℕ) :=
  started ++ takes ++ schedulesItself .ret ++ [.settle 1]

/-- The second callback is put into the same fiber and yields ready. -/
def resumed : List (Action ℕ) :=
  returned ++ takes ++ [.swapIn 1, .leave 1 (.yieldToReady (.task 2)), .swapOut 1, .uncount 1,
    .settle 1, .requeue 1] ++ takes

/-- The second callback ends at once; the fiber is empty when the entry is taken. -/
def emptied : List (Action ℕ) :=
  returned ++ takes ++ [.swapIn 1, .leave 1 .ret, .swapOut 1, .uncount 1, .settle 1] ++ takes

/-- The entry of a callback that has scheduled its fiber and returned starts the fiber with
an empty callback, or resumes the next callback, which `reset` has put into the fiber. -/
theorem returned_not_faithful :
  (∃ s, (system ℕ).Reaches (fun a _ => OnlyWorker 1 a) s ∧ ¬ s.Faithful ∧
      (s.worker 1).pc = .enter .fiber 1 ∧ (s.heap 1).isEmpty = true) ∧
    ∃ s, (system ℕ).Reaches (fun a _ => OnlyWorker 1 a) s ∧ ¬ s.Faithful ∧
      (s.worker 1).pc = .enter .fiber 1 ∧ s.track.taken = some 0 ∧ s.track.held 1 = some 1
  := by
  have hempty : (system ℕ).Reaches (fun a _ => OnlyWorker 1 a) empty := .init empty_initial
  constructor
  · use after emptied
    refine ⟨hempty.exec emptied ?_ rfl, ?_, rfl, rfl⟩
    · simp [emptied, returned, started, takes, schedulesItself, OnlyWorker, Action.worker?]
    · intro h
      exact absurd (h 1 1 rfl 0 rfl).2 (by decide)
  · use after resumed
    refine ⟨hempty.exec resumed ?_ rfl, ?_, rfl, rfl, rfl⟩
    · simp [resumed, returned, started, takes, schedulesItself, OnlyWorker, Action.worker?]
    · intro h
      exact absurd (h 1 1 rfl 0 rfl).1 (by decide)

end TrackedWorkers

end WbServer
