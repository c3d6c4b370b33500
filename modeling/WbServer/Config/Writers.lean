import WbServer.Base.Transition
import WbServer.Config.Var
import WbServer.Mutex

/-!
# Concurrent `set_value`

Any number of threads call `set_value` on one variable. A call compares and notifies under
the read lock, which several threads may hold, releases it, and assigns under the write lock.
A thread that is alone computes `ConfigVar.setValue`. Two threads that overlap may both
notify of a change of the same value, and assign in the other order;
`Writers.reaches_agrees` shows that the listeners agree with the variable as long as no
thread finds a different value while another one is between its comparison and its
assignment.
-/

namespace WbServer

/-- The call of a listener with the old and the new value. -/
structure Notification (T : Type*) where
  key : ℕ
  old : T
  new : T
  deriving DecidableEq

/-- Where a thread is in `set_value(val)`. -/
inductive Place (T W ε : Type*) where
  | idle
  | entered (val : T)
  | comparing (val : T)
  | notifying (val : T) (cbs : List (ℕ × Listener T W ε))
  | leaving
  | between (val : T)
  | assigning (val : T)
  | assigned

/-- A variable and its lock, the world of the listeners, where each thread is, and the
notifications so far. -/
structure Writers (T W ε : Type*) where
  var : ConfigVar T W ε
  world : W
  mMutex : RWMutex
  place : ℕ → Place T W ε
  log : List (Notification T)

/-- A thread calls `set_value(val)`, or goes on with its call. -/
inductive Writers.Event (T : Type*) where
  | call (t : ℕ) (val : T)
  | proceed (t : ℕ)

/-- The thread that moves. -/
def Writers.Event.thread {T : Type*} : Writers.Event T → ℕ
  | call t _ | proceed t => t

namespace Place

variable {T W ε : Type*}

/-- The thread has found a different value, and not assigned it yet. -/
def changing : Place T W ε → Bool
  | notifying _ _ | between _ | assigning _ => true
  | _ => false

/-- The new value of the last notification of a listener, if no other thread is between its
comparison and its assignment and the variable holds `old`. -/
def expected (key : ℕ) (old : T) : Place T W ε → T
  | notifying val cbs => if key ∈ cbs.map Prod.fst then old else val
  | between val | assigning val => val
  | _ => old

theorem expected_of_not_changing {p : Place T W ε} (h : p.changing = false) (key : ℕ) (old : T) :
  p.expected key old = old
  := by
  cases p <;> first | rfl | simp [changing] at h

/-- A thread that moves from `p` to `p'` neither starts nor ends a change, and notifies
nobody. -/
structure Silent (p p' : Place T W ε) : Prop where
  changing : p'.changing = p.changing
  expected : ∀ key old, p'.expected key old = p.expected key old
  not_notifying : ∀ val cbs, p' ≠ .notifying val cbs

end Place

namespace Writers

variable {T W ε : Type*}

/-! ### The code -/

/-- The thread is at another place. -/
def goto (s : Writers T W ε) (t : ℕ) (p : Place T W ε) : Writers T W ε :=
  { s with place := Function.update s.place t p }

@[simp]
theorem goto_place_self (s : Writers T W ε) (t : ℕ) (p : Place T W ε) :
  (s.goto t p).place t = p
  := by
  simp [goto]

theorem goto_place_of_ne (s : Writers T W ε) {t u : ℕ} (h : u ≠ t) (p : Place T W ε) :
  (s.goto t p).place u = s.place u
  := by
  simp [goto, h]

/-- The call of the listener `c`, in front of the calls of `cbs`. An exception leaves the
section of the read lock. -/
def callback (s : Writers T W ε) (t : ℕ) (val : T) (c : ℕ × Listener T W ε)
    (cbs : List (ℕ × Listener T W ε)) : Writers T W ε :=
  let r := c.2 s.var.mVal val s.world
  let n : Notification T := { key := c.1, old := s.var.mVal, new := val }
  { s with world := r.1, log := s.log ++ [n] }.goto t
    (if r.2.isSome then .leaving else .notifying val cbs)

/-- The next step of a thread in `set_value`. -/
def proceed (eq : T → T → Bool) (s : Writers T W ε) (t : ℕ) : Option (Writers T W ε) :=
  match s.place t with
  | .idle => none
  | .entered val =>
      (s.mMutex.readLock t).map fun m => { s with mMutex := m }.goto t (.comparing val)
  | .comparing val =>
      if eq val s.var.mVal then some (s.goto t .leaving)
      else some (s.goto t (.notifying val s.var.mCbs))
  | .notifying val (c :: cbs) => some (s.callback t val c cbs)
  | .notifying val [] =>
      some ({ s with mMutex := s.mMutex.unlock t }.goto t (.between val))
  | .leaving => some ({ s with mMutex := s.mMutex.unlock t }.goto t .idle)
  | .between val =>
      (s.mMutex.writeLock t).map fun m => { s with mMutex := m }.goto t (.assigning val)
  | .assigning val => some ({ s with var := { s.var with mVal := val } }.goto t .assigned)
  | .assigned => some ({ s with mMutex := s.mMutex.unlock t }.goto t .idle)

/-- A step of a thread. -/
def step (eq : T → T → Bool) : Event T → Writers T W ε → Option (Writers T W ε)
  | .call t val, s =>
      match s.place t with
      | .idle => some (s.goto t (.entered val))
      | _ => none
  | .proceed t, s => s.proceed eq t

/-- Before the first call. -/
def start (var : ConfigVar T W ε) (w : W) : Writers T W ε where
  var := var
  world := w
  mMutex := .free
  place _ := .idle
  log := []

/-- The threads as a transition system. -/
def system (eq : T → T → Bool) (var : ConfigVar T W ε) (w : W) :
    Transition.System (Writers T W ε) (Event T) where
  init s := s = start var w
  step := step eq

/-- The notifications that a listener received. -/
def received (key : ℕ) (log : List (Notification T)) : List (Notification T) :=
  log.filter fun n => n.key = key

/-- Each notification starts from the value that the one before it ended with. -/
def Chained (key : ℕ) (log : List (Notification T)) : Prop :=
  (received key log).IsChain fun n n' => n'.old = n.new

/-- If no `set_value` is in progress, the notifications of each listener are a chain that
ends with the stored value. -/
def Agrees (s : Writers T W ε) : Prop :=
  (∀ t, s.place t = .idle) →
    ∀ key, Chained key s.log ∧ ∀ n, (received key s.log).getLast? = some n → n.new = s.var.mVal

/-! ### The steps -/

variable {eq : T → T → Bool} {s s' : Writers T W ε}

/-- What a step does: it is silent, or the thread finds a different value, calls a listener,
or assigns. -/
theorem step_cases {l : Event T} (h : step eq l s = some s') :
  (∃ m p, Place.Silent (s.place l.thread) p ∧ s' = { s with mMutex := m }.goto l.thread p) ∨
  (∃ val, l = .proceed l.thread ∧ s.place l.thread = .comparing val ∧
    eq val s.var.mVal = false ∧ s' = s.goto l.thread (.notifying val s.var.mCbs)) ∨
  (∃ val c cbs, s.place l.thread = .notifying val (c :: cbs) ∧
    s' = s.callback l.thread val c cbs) ∨
  ∃ val, s.place l.thread = .assigning val ∧
    s' = { s with var := { s.var with mVal := val } }.goto l.thread .assigned
  := by
  cases l with
  | call t val =>
      dsimp only [Event.thread]
      cases hp : s.place t with
      | idle =>
          left
          use s.mMutex, .entered val
          constructor
          · constructor <;> simp [Place.changing, Place.expected]
          · simpa [step, hp] using h.symm
      | _ => simp [step, hp] at h
  | proceed t =>
      dsimp only [Event.thread]
      cases hp : s.place t with
      | idle => simp [step, proceed, hp] at h
      | entered val =>
          left
          obtain ⟨m, -, rfl⟩ : ∃ m, s.mMutex.readLock t = some m ∧
              { s with mMutex := m }.goto t (.comparing val) = s' := by
            simpa [step, proceed, hp] using h
          use m, .comparing val
          constructor
          · constructor <;> simp [Place.changing, Place.expected]
          · rfl
      | comparing val =>
          cases heq : eq val s.var.mVal with
          | true =>
              left
              use s.mMutex, .leaving
              constructor
              · constructor <;> simp [Place.changing, Place.expected]
              · simpa [step, proceed, hp, heq] using h.symm
          | false =>
              right; left
              use val, rfl, rfl, heq
              simpa [step, proceed, hp, heq] using h.symm
      | notifying val cbs =>
          cases cbs with
          | nil =>
              left
              use s.mMutex.unlock t, .between val
              constructor
              · constructor <;> simp [Place.changing, Place.expected]
              · simpa [step, proceed, hp] using h.symm
          | cons c cbs =>
              right; right; left
              use val, c, cbs, rfl
              simpa [step, proceed, hp] using h.symm
      | leaving =>
          left
          use s.mMutex.unlock t, .idle
          constructor
          · constructor <;> simp [Place.changing, Place.expected]
          · simpa [step, proceed, hp] using h.symm
      | between val =>
          left
          obtain ⟨m, -, rfl⟩ : ∃ m, s.mMutex.writeLock t = some m ∧
              { s with mMutex := m }.goto t (.assigning val) = s' := by
            simpa [step, proceed, hp] using h
          use m, .assigning val
          constructor
          · constructor <;> simp [Place.changing, Place.expected]
          · rfl
      | assigning val =>
          right; right; right
          use val, rfl
          simpa [step, proceed, hp] using h.symm
      | assigned =>
          left
          use s.mMutex.unlock t, .idle
          constructor
          · constructor <;> simp [Place.changing, Place.expected]
          · simpa [step, proceed, hp] using h.symm

/-- The other threads stay where they are. -/
theorem step_place {l : Event T} (h : step eq l s = some s') {u : ℕ} (hu : u ≠ l.thread) :
  s'.place u = s.place u
  := by
  obtain ⟨m, p, -, rfl⟩ | ⟨val, -, -, -, rfl⟩ | ⟨val, c, cbs, -, rfl⟩ | ⟨val, -, rfl⟩ :=
    step_cases h <;> apply goto_place_of_ne _ hu

/-- A thread that takes no step stays where it is. -/
theorem exec_place {var : ConfigVar T W ε} {w : W} {ls : List (Event T)} {u : ℕ}
    (hu : ∀ l ∈ ls, u ≠ l.thread) (h : (system eq var w).exec ls s = some s') :
  s'.place u = s.place u
  := by
  induction ls generalizing s with
  | nil =>
      obtain rfl : s = s' := by simpa [Transition.System.exec] using h
      rfl
  | cons l ls ih =>
      obtain ⟨t, ht, h⟩ := Option.bind_eq_some_iff.mp h
      obtain ⟨hl, hls⟩ := List.forall_mem_cons.mp hu
      rw [ih hls h, step_place ht hl]

/-! ### A thread that is alone -/

variable (eq) in
/-- The next step of the thread. -/
def Next (t : ℕ) (s s' : Writers T W ε) : Prop :=
  s.proceed eq t = some s'

variable (eq) in
/-- The thread takes any number of steps, and the other ones take none. -/
def Runs (t : ℕ) : Writers T W ε → Writers T W ε → Prop :=
  Relation.ReflTransGen (Next eq t)

variable (eq) in
/-- The loop over the listeners is `ConfigVar.notify`. -/
theorem runs_notify {t : ℕ} {val : T} {cbs : List (ℕ × Listener T W ε)}
    (ht : s.place t = .notifying val cbs) :
  let r := ConfigVar.notify s.var.mVal val cbs s.world
  ∃ s', Runs eq t s s' ∧ s'.place t = (if r.2.2.isSome then .leaving else .notifying val []) ∧
    s'.var = s.var ∧ s'.mMutex = s.mMutex ∧ s'.world = r.1 ∧
    s'.log.map Notification.key = s.log.map Notification.key ++ r.2.1
  := by
  induction cbs generalizing s with
  | nil =>
      use s, Relation.ReflTransGen.refl
      simp [ConfigVar.notify, ht]
  | cons c cbs ih =>
      have hcall : Next eq t s (s.callback t val c cbs) := by simp [Next, proceed, ht]
      obtain ⟨key, cb⟩ := c
      rcases hcb : cb s.var.mVal val s.world with ⟨w, _ | e⟩
      · have hplace : (s.callback t val (key, cb) cbs).place t = .notifying val cbs := by
          simp [callback, hcb]
        obtain ⟨s', hruns, hs'⟩ := ih hplace
        use s', Relation.ReflTransGen.head hcall hruns
        simpa [callback, hcb, Writers.goto, ConfigVar.notify] using hs'
      · use s.callback t val (key, cb) cbs, Relation.ReflTransGen.single hcall
        simp [callback, hcb, Writers.goto, ConfigVar.notify]

variable (eq) in
/-- The thread leaves the section of the read lock. -/
theorem runs_leaving {t : ℕ} (ht : s.place t = .leaving) (hunlock : s.mMutex.unlock t = .free) :
  ∃ s', Runs eq t s s' ∧ s'.place t = .idle ∧ s'.mMutex = .free ∧
    s'.var = s.var ∧ s'.world = s.world ∧ s'.log = s.log
  := by
  let s₁ := { s with mMutex := .free }.goto t .idle
  have h₁ : Next eq t s s₁ := by simp [Next, proceed, ht, hunlock, s₁]
  use s₁, Relation.ReflTransGen.single h₁
  simp [Writers.goto, s₁]

variable (eq) in
/-- When all listeners have been called, the thread assigns. -/
theorem runs_assign {t : ℕ} {val : T} (ht : s.place t = .notifying val [])
    (hunlock : s.mMutex.unlock t = .free) :
  ∃ s', Runs eq t s s' ∧ s'.place t = .idle ∧ s'.mMutex = .free ∧
    s'.var = { s.var with mVal := val } ∧ s'.world = s.world ∧ s'.log = s.log
  := by
  obtain ⟨m, hlock, hunlock'⟩ := RWMutex.writeLock_free t
  let s₁ := { s with mMutex := .free }.goto t (.between val)
  let s₂ := { s₁ with mMutex := m }.goto t (.assigning val)
  let s₃ := { s₂ with var := { s₂.var with mVal := val } }.goto t .assigned
  let s₄ := { s₃ with mMutex := .free }.goto t .idle
  have h₁ : Next eq t s s₁ := by simp [Next, proceed, ht, hunlock, s₁]
  have h₂ : Next eq t s₁ s₂ := by simp [Next, proceed, Writers.goto, hlock, s₁, s₂]
  have h₃ : Next eq t s₂ s₃ := by simp [Next, proceed, Writers.goto, s₂, s₃]
  have h₄ : Next eq t s₃ s₄ := by simp [Next, proceed, Writers.goto, hunlock', s₂, s₃, s₄]
  use s₄, (((Relation.ReflTransGen.single h₁).tail h₂).tail h₃).tail h₄
  simp [Writers.goto, s₁, s₂, s₃, s₄]

/-- A call that finds the lock free and is not interleaved is `ConfigVar.setValue`. -/
theorem runs_setValue {t : ℕ} {val : T} (ht : s.place t = .entered val)
    (hfree : s.mMutex = .free) :
  let u := ConfigVar.setValue eq s.var val s.world
  ∃ s', Runs eq t s s' ∧ s'.place t = .idle ∧ s'.mMutex = .free ∧
    s'.var = u.var ∧ s'.world = u.world ∧
    s'.log.map Notification.key = s.log.map Notification.key ++ u.calls
  := by
  obtain ⟨m, hlock, hunlock⟩ := RWMutex.readLock_free t
  let s₁ := { s with mMutex := m }.goto t (.comparing val)
  have h₁ : Next eq t s s₁ := by simp [Next, proceed, ht, hfree, hlock, s₁]
  cases heq : eq val s.var.mVal with
  | true =>
      have h₂ : Next eq t s₁ (s₁.goto t .leaving) := by
        simp [Next, proceed, Writers.goto, heq, s₁]
      obtain ⟨s', hruns, hidle, hmutex, hvar, hworld, hlog⟩ :=
        runs_leaving eq (goto_place_self s₁ t .leaving) hunlock
      use s', (hruns.head h₂).head h₁, hidle, hmutex
      rw [ConfigVar.setValue_of_eq heq, hvar, hworld, hlog]
      simp [Writers.goto, s₁]
  | false =>
      have h₂ : Next eq t s₁ (s₁.goto t (.notifying val s.var.mCbs)) := by
        simp [Next, proceed, Writers.goto, heq, s₁]
      obtain ⟨s₂, hruns, hplace, hvar, hmutex, hworld, hlog⟩ :=
        runs_notify eq (goto_place_self s₁ t (.notifying val s.var.mCbs))
      have hunlock₂ : s₂.mMutex.unlock t = .free := hmutex ▸ hunlock
      rcases hn : ConfigVar.notify s.var.mVal val s.var.mCbs s.world with ⟨w, calls, _ | e⟩
      all_goals simp only [Writers.goto, s₁, hn] at hplace hvar hworld hlog
      · obtain ⟨s', hruns', hidle, hmutex', hvar', hworld', hlog'⟩ :=
          runs_assign eq hplace hunlock₂
        use s', ((hruns.trans hruns').head h₂).head h₁, hidle, hmutex'
        rw [hvar', hworld', hlog', hvar, hworld, hlog]
        simp [ConfigVar.setValue, heq, hn]
      · obtain ⟨s', hruns', hidle, hmutex', hvar', hworld', hlog'⟩ :=
          runs_leaving eq hplace hunlock₂
        use s', ((hruns.trans hruns').head h₂).head h₁, hidle, hmutex'
        rw [hvar', hworld', hlog', hvar, hworld, hlog]
        simp [ConfigVar.setValue, heq, hn]

/-! ### Threads that do not overlap -/

theorem received_append (key : ℕ) (log : List (Notification T)) (n : Notification T) :
  received key (log ++ [n]) = received key log ++ if n.key = key then [n] else []
  := by
  by_cases h : n.key = key <;> simp [received, h]

/-- No thread but `t` is between its comparison and its assignment, and the place of `t` tells
the last notification of each listener. -/
structure Turn (s : Writers T W ε) (t : ℕ) : Prop where
  others : ∀ u, u ≠ t → (s.place u).changing = false
  last : ∀ key n, (received key s.log).getLast? = some n →
    n.new = (s.place t).expected key s.var.mVal

/-- If no thread is between its comparison and its assignment, it may be any one's turn. -/
theorem Turn.move {t u : ℕ} (h : Turn s t) (hu : ∀ v, v ≠ u → (s.place v).changing = false) :
  Turn s u
  := by
  by_cases hut : u = t
  · rw [hut]
    apply h
  · have ht : (s.place t).changing = false := hu t fun h => hut h.symm
    constructor
    case others => apply hu
    case last =>
      intro key n hn
      rw [h.last key n hn, Place.expected_of_not_changing ht,
        Place.expected_of_not_changing (h.others u hut)]

/-- The thread whose turn it is moves. -/
theorem Turn.goto_self {t : ℕ} (h : Turn s t) (m : RWMutex) {p : Place T W ε}
    (hp : ∀ key, received key s.log ≠ [] →
      p.expected key s.var.mVal = (s.place t).expected key s.var.mVal) :
  Turn ({ s with mMutex := m }.goto t p) t
  := by
  constructor
  case others =>
    intro u hu
    rw [goto_place_of_ne _ hu]
    apply h.others u hu
  case last =>
    intro key n hn
    have hreceived : received key s.log ≠ [] := by
      intro hnil
      simp [goto, hnil] at hn
    rw [goto_place_self]
    apply (h.last key n hn).trans (hp key hreceived).symm

/-- Another thread moves silently. -/
theorem Turn.goto_other {t u : ℕ} (h : Turn s t) (hut : u ≠ t) (m : RWMutex) {p : Place T W ε}
    (hp : Place.Silent (s.place u) p) :
  Turn ({ s with mMutex := m }.goto u p) t
  := by
  constructor
  case others =>
    intro v hv
    by_cases hvu : v = u
    · rw [hvu, goto_place_self, hp.changing]
      apply h.others u hut
    · rw [goto_place_of_ne _ hvu]
      apply h.others v hv
  case last =>
    intro key n hn
    rw [goto_place_of_ne _ hut.symm]
    apply h.last key n hn

/-- What holds as long as the threads do not overlap. -/
structure Inv (s : Writers T W ε) : Prop where
  noThrow : s.var.NoThrow
  keys : (s.var.mCbs.map Prod.fst).Nodup
  known : ∀ key, received key s.log ≠ [] → key ∈ s.var.mCbs.map Prod.fst
  rest : ∀ t val cbs, s.place t = .notifying val cbs → cbs <:+ s.var.mCbs
  chained : ∀ key, Chained key s.log
  turn : ∃ t, Turn s t

theorem inv_start {var : ConfigVar T W ε} (hthrow : var.NoThrow)
    (hkeys : (var.mCbs.map Prod.fst).Nodup) (w : W) :
  Inv (start var w)
  := by
  constructor
  case noThrow => apply hthrow
  case keys => apply hkeys
  case known =>
    intro key hkey
    exact absurd rfl hkey
  case rest => simp [start]
  case chained => simp [start, Chained, received]
  case turn =>
    use 0
    constructor
    · intro u _
      rfl
    · simp [start, received]

/-- The listeners that are still to be called are a part of the listeners. -/
theorem rest_goto {t : ℕ} {p : Place T W ε}
    (h : ∀ t val cbs, s.place t = .notifying val cbs → cbs <:+ s.var.mCbs)
    (hp : ∀ val cbs, p = .notifying val cbs → cbs <:+ s.var.mCbs) :
  ∀ u val cbs, (s.goto t p).place u = .notifying val cbs → cbs <:+ s.var.mCbs
  := by
  intro u val cbs hu
  by_cases hut : u = t
  · rw [hut, goto_place_self] at hu
    apply hp val cbs hu
  · rw [goto_place_of_ne _ hut] at hu
    apply h u val cbs hu

/-- A silent step. -/
theorem Inv.silent (h : Inv s) {t : ℕ} (m : RWMutex) {p : Place T W ε}
    (hp : Place.Silent (s.place t) p) :
  Inv ({ s with mMutex := m }.goto t p)
  := by
  constructor
  case noThrow => apply h.noThrow
  case keys => apply h.keys
  case known => apply h.known
  case rest => apply rest_goto h.rest (fun val cbs hcbs => (hp.not_notifying val cbs hcbs).elim)
  case chained => apply h.chained
  case turn =>
    obtain ⟨u, hu⟩ := h.turn
    use u
    by_cases htu : t = u
    · rw [htu] at hp ⊢
      apply hu.goto_self m (fun key _ => hp.expected key s.var.mVal)
    · apply hu.goto_other htu m hp

/-- A thread finds a different value while no other one is between its comparison and its
assignment. -/
theorem Inv.compare (h : Inv s) {t : ℕ} {val : T} (ht : s.place t = .comparing val)
    (halone : ∀ u, u ≠ t → (s.place u).changing = false) :
  Inv (s.goto t (.notifying val s.var.mCbs))
  := by
  constructor
  case noThrow => apply h.noThrow
  case keys => apply h.keys
  case known => apply h.known
  case rest =>
    apply rest_goto h.rest
    rintro _ _ ⟨⟩
    apply List.suffix_refl
  case chained => apply h.chained
  case turn =>
    obtain ⟨u, hu⟩ := h.turn
    use t
    apply (hu.move halone).goto_self s.mMutex
    intro key hkey
    have hmem : key ∈ s.var.mCbs.map Prod.fst := h.known key hkey
    rw [ht, Place.expected, if_pos hmem]
    rfl

/-- The thread that notifies is the one whose turn it is. -/
theorem Inv.turn_of_changing (h : Inv s) {t : ℕ} (ht : (s.place t).changing = true) :
  Turn s t
  := by
  obtain ⟨u, hu⟩ := h.turn
  by_cases htu : t = u
  · rw [htu]
    apply hu
  · rw [hu.others t htu] at ht
    contradiction

/-- The call of a listener. -/
theorem Inv.callback (h : Inv s) {t : ℕ} {val : T} {c : ℕ × Listener T W ε}
    {cbs : List (ℕ × Listener T W ε)} (ht : s.place t = .notifying val (c :: cbs)) :
  Inv (s.callback t val c cbs)
  := by
  have hturn : Turn s t := h.turn_of_changing (by rw [ht]; rfl)
  have hrest : c :: cbs <:+ s.var.mCbs := h.rest t val _ ht
  have hc : c ∈ s.var.mCbs := hrest.subset List.mem_cons_self
  have hnext : (c.2 s.var.mVal val s.world).2 = none := h.noThrow c hc _ _ _
  have hkeys : ((c :: cbs).map Prod.fst).Nodup := h.keys.sublist (hrest.sublist.map Prod.fst)
  have hfresh : c.1 ∉ cbs.map Prod.fst := (List.nodup_cons.mp hkeys).1
  rw [Writers.callback, hnext]
  constructor
  case noThrow => apply h.noThrow
  case keys => apply h.keys
  case known =>
    intro key hkey
    by_cases hck : c.1 = key
    · rw [← hck]
      apply List.mem_map_of_mem hc
    · apply h.known key
      simpa [Writers.goto, received_append, hck] using hkey
  case rest =>
    apply rest_goto h.rest
    rintro _ _ ⟨⟩
    apply (List.suffix_cons c cbs).trans hrest
  case chained =>
    intro key
    have hchain : Chained key s.log := h.chained key
    simp only [Chained, Writers.goto, received_append]
    split
    case isFalse =>
      rw [List.append_nil]
      apply hchain
    case isTrue hck =>
      apply hchain.append (List.IsChain.singleton _)
      intro n hn n' hn'
      obtain rfl : _ = n' := by simpa using hn'
      have hold := hturn.last key n hn
      have hkey : key ∈ (c :: cbs).map Prod.fst := hck ▸ List.mem_cons_self
      rw [ht, Place.expected, if_pos hkey] at hold
      apply hold.symm
  case turn =>
    use t
    constructor
    case others =>
      intro u hu
      rw [goto_place_of_ne _ hu]
      apply hturn.others u hu
    case last =>
      intro key n hn
      rw [goto_place_self]
      simp only [Writers.goto, received_append] at hn
      by_cases hck : c.1 = key
      · obtain rfl : _ = n := by simpa [hck] using hn
        rw [← hck]
        simp [Place.expected, hfresh]
      · have hlast : (received key s.log).getLast? = some n := by simpa [hck] using hn
        have hnew := hturn.last key n hlast
        rw [ht] at hnew
        have hmem : key ∈ (c :: cbs).map Prod.fst ↔ key ∈ cbs.map Prod.fst := by
          rw [List.map_cons, List.mem_cons, or_iff_right fun h => hck h.symm]
        rwa [Place.expected, if_congr hmem rfl rfl] at hnew

/-- The assignment. -/
theorem Inv.assign (h : Inv s) {t : ℕ} {val : T} (ht : s.place t = .assigning val) :
  Inv ({ s with var := { s.var with mVal := val } }.goto t .assigned)
  := by
  have hturn : Turn s t := h.turn_of_changing (by rw [ht]; rfl)
  constructor
  case noThrow => apply h.noThrow
  case keys => apply h.keys
  case known => apply h.known
  case rest =>
    apply rest_goto h.rest
    rintro _ _ ⟨⟩
  case chained => apply h.chained
  case turn =>
    use t
    constructor
    case others =>
      intro u hu
      rw [goto_place_of_ne _ hu]
      apply hturn.others u hu
    case last =>
      intro key n hn
      rw [goto_place_self]
      have hnew := hturn.last key n hn
      rwa [ht] at hnew

/-- When a thread finds a different value, no other thread is between its comparison and its
assignment. -/
def Alone (eq : T → T → Bool) : Event T → Writers T W ε → Prop
  | .call _ _, _ => True
  | .proceed t, s => ∀ val, s.place t = .comparing val → eq val s.var.mVal = false →
      ∀ u, u ≠ t → (s.place u).changing = false

theorem Inv.step (h : Inv s) {l : Event T} (hok : Alone eq l s)
    (hstep : Writers.step eq l s = some s') :
  Inv s'
  := by
  obtain ⟨m, p, hp, rfl⟩ | ⟨val, hl, ht, heq, rfl⟩ | ⟨val, c, cbs, ht, rfl⟩ | ⟨val, ht, rfl⟩ :=
    step_cases hstep
  · apply h.silent m hp
  · rw [hl] at hok
    apply h.compare ht (hok val ht heq)
  · apply h.callback ht
  · apply h.assign ht

theorem Inv.agrees (h : Inv s) :
  Agrees s
  := by
  intro hidle key
  use h.chained key
  intro n hn
  obtain ⟨t, ht⟩ := h.turn
  have hnew := ht.last key n hn
  rwa [hidle t] at hnew

/-- As long as the threads do not overlap, the listeners agree with the variable. -/
theorem reaches_agrees {var : ConfigVar T W ε} (hthrow : var.NoThrow)
    (hkeys : (var.mCbs.map Prod.fst).Nodup) {w : W}
    (h : (system eq var w).Reaches (Alone eq) s) :
  Agrees s
  := by
  apply Inv.agrees
  apply h.invariant
  · rintro s rfl
    apply inv_start hthrow hkeys
  · intro l s s' hs hok hstep
    apply hs.step hok hstep

/-- A variable with the value `0` and one listener. -/
def zero : ConfigVar ℕ Unit Empty where
  mVal := 0
  mCbs := [(1, fun _ _ w => (w, none))]

/-- A thread sets `5`. In front of its assignment, another one sets the value that is still
stored. -/
def setFive : List (Event ℕ) :=
  [.call 1 5, .proceed 1, .proceed 1, .proceed 1, .proceed 1, .call 2 0, .proceed 2, .proceed 2,
    .proceed 2, .proceed 1, .proceed 1, .proceed 1]

theorem reaches_agrees_setFive :
  ∃ s, (system (· == ·) zero ()).exec setFive (start zero ()) = some s ∧ Agrees s
  := by
  have hmeets : (system (· == ·) zero ()).Meets (Alone (· == ·)) setFive (start zero ()) := by
    apply (Transition.System.meets_cons rfl).mpr ⟨trivial, _⟩
    apply (Transition.System.meets_cons rfl).mpr ⟨nofun, _⟩
    -- the thread `1` finds a different value, and no other thread has been called
    refine (Transition.System.meets_cons rfl).mpr ⟨fun _ _ _ u hu => ?_, ?_⟩
    · simp [Writers.goto, start, Function.update_of_ne hu, Place.changing]
    apply (Transition.System.meets_cons rfl).mpr ⟨nofun, _⟩
    apply (Transition.System.meets_cons rfl).mpr ⟨nofun, _⟩
    apply (Transition.System.meets_cons rfl).mpr ⟨trivial, _⟩
    apply (Transition.System.meets_cons rfl).mpr ⟨nofun, _⟩
    -- the thread `2` finds the stored value
    refine (Transition.System.meets_cons rfl).mpr ⟨fun val hval hne => ?_, ?_⟩
    · cases hval
      cases hne
    apply (Transition.System.meets_cons rfl).mpr ⟨nofun, _⟩
    apply (Transition.System.meets_cons rfl).mpr ⟨nofun, _⟩
    apply (Transition.System.meets_cons rfl).mpr ⟨nofun, _⟩
    apply (Transition.System.meets_cons rfl).mpr ⟨nofun, _⟩
    trivial
  obtain ⟨s, hs⟩ : ∃ s, (system (· == ·) zero ()).exec setFive (start zero ()) = some s :=
    Option.isSome_iff_exists.mp rfl
  use s, hs
  apply reaches_agrees _ _ (Transition.System.Reaches.exec_meets (.init rfl) setFive hmeets hs)
  · intro c hc
    obtain rfl := List.mem_singleton.mp hc
    intro _ _ _
    rfl
  · decide

/-- Two threads compare `5` and `6` with the stored `0` and notify the listener of both
changes. The second one assigns first. -/
def fiveAndSix : List (Event ℕ) :=
  [.call 1 5, .call 2 6, .proceed 1, .proceed 1, .proceed 1, .proceed 1,
    .proceed 2, .proceed 2, .proceed 2, .proceed 2, .proceed 2, .proceed 2, .proceed 2,
    .proceed 1, .proceed 1, .proceed 1]

theorem fiveAndSix_not_agrees :
  ∃ s, (system (· == ·) zero ()).exec fiveAndSix (start zero ()) = some s ∧ ¬ Agrees s
  := by
  obtain ⟨s, hs⟩ : ∃ s, (system (· == ·) zero ()).exec fiveAndSix (start zero ()) = some s :=
    Option.isSome_iff_exists.mp rfl
  have hend : ((system (· == ·) zero ()).exec fiveAndSix (start zero ())).map
      (fun s => (s.var.mVal, s.log, s.place 1, s.place 2)) =
      some (5, [⟨1, 0, 5⟩, ⟨1, 0, 6⟩], .idle, .idle) := rfl
  rw [hs, Option.map_some, Option.some.injEq, Prod.mk.injEq, Prod.mk.injEq, Prod.mk.injEq] at hend
  obtain ⟨hvalue, hlog, h₁, h₂⟩ := hend
  have hidle : ∀ t, s.place t = .idle := by
    intro t
    by_cases ht₁ : t = 1
    · rw [ht₁, h₁]
    · by_cases ht₂ : t = 2
      · rw [ht₂, h₂]
      · apply exec_place _ hs
        simp [fiveAndSix, Event.thread, ht₁, ht₂]
  use s, hs
  intro h
  have hlast := (h hidle 1).2 { key := 1, old := 0, new := 6 }
  rw [hlog, hvalue] at hlast
  have hnew := hlast rfl
  contradiction

end Writers

end WbServer
