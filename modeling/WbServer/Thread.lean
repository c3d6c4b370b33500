import WbServer.Base.Transition

/-!
# The start of a thread

The constructor of `Thread` creates a thread that executes `run`, and waits for it at a
semaphore. `Semaphore::wait` does not tell whether it has taken a token: a signal that
interrupts it lets the constructor return at any time. `Thread.along_safe_iff` says that the
constructor returns behind the writes of the new thread if and only if no signal comes before
them.
-/

namespace WbServer

/-- A `pid_t` that the kernel gives to a thread. -/
structure Tid where
  val : ℤ
  pos : 0 < val
  lt : val < 2 ^ 31

namespace Thread

/-! ### The code -/

/-- The members of a `Thread` that `run` uses. -/
inductive Member where
  | mName
  | mId
  | mCb
  | mSemaphore
  deriving DecidableEq

/-- The statements of `run`. -/
inductive Stmt where
  /-- `t_thread = thread`. -/
  | setThis
  /-- `t_thread_name = thread->m_name`. -/
  | copyName
  /-- `thread->m_id = get_thread_id()`. -/
  | setId
  /-- `pthread_setname_np`. -/
  | setName
  /-- `cb.swap(thread->m_cb)`. -/
  | swapCb
  /-- `thread->m_semaphore.notify()`. -/
  | notify
  /-- `cb()`. -/
  | callCb
  deriving DecidableEq

/-- The member that a statement accesses. -/
def Stmt.member? : Stmt → Option Member
  | setThis => none
  | copyName => some .mName
  | setId => some .mId
  | setName => some .mName
  | swapCb => some .mCb
  | notify => some .mSemaphore
  | callCb => none

/-- `run`. -/
def run : List Stmt :=
  [.setThis, .copyName, .setId, .setName, .swapCb, .notify, .callCb]

/-- The new thread: its id, `t_thread`, `t_thread_name`, the local `cb`, and the statements
that are left of `run`. -/
structure Child (F : Type) where
  tid : Tid
  tThread : Bool
  tThreadName : String
  cb : Option F
  todo : List Stmt

/-- Where the creating thread is. -/
inductive Creator where
  /-- In front of `pthread_create`. -/
  | creates
  /-- In `m_semaphore.wait()`. -/
  | waits
  /-- Behind the constructor. -/
  | returned
  /-- Behind the exception of the constructor. -/
  | thrown
  /-- Behind the destructor. -/
  | destroyed
  deriving DecidableEq

/-- A `Thread` with the two threads that access it, and the members that have been accessed
behind the destructor. -/
structure State (F : Type) where
  mId : ℤ
  mCb : Option F
  mName : String
  mSemaphore : ℕ
  creator : Creator
  child : Option (Child F)
  dangling : List Member

/-- A step of one of the threads. -/
inductive Action where
  /-- `pthread_create`, which may fail. -/
  | create (tid : Option Tid)
  /-- `sem_wait` takes a token. -/
  | wait
  /-- `sem_wait` is interrupted by a signal. -/
  | interrupt
  /-- The destructor. -/
  | destroy
  /-- The new thread executes a statement. -/
  | run

namespace State

variable {F : Type}

/-- In front of the body of the constructor. -/
def new (cb : F) (name : String) : State F where
  mId := -1
  mCb := some cb
  mName := if name = "" then "UNKNOW" else name
  mSemaphore := 0
  creator := .creates
  child := none
  dangling := []

/-- `get_id`. -/
def getId (s : State F) : BitVec 32 :=
  BitVec.ofInt 32 s.mId

/-- What a statement of `run` does to the variables of the new thread. -/
def exec (s : State F) (c : Child F) : Stmt → Child F
  | .setThis => { c with tThread := true }
  | .copyName => { c with tThreadName := s.mName }
  | .swapCb => { c with cb := s.mCb }
  | _ => c

/-- What a statement of `run` does to the members. -/
def write (s : State F) (c : Child F) : Stmt → State F
  | .setId => { s with mId := c.tid.val }
  | .swapCb => { s with mCb := c.cb }
  | .notify => { s with mSemaphore := s.mSemaphore + 1 }
  | _ => s

/-- An access to a member of a destroyed `Thread`. -/
def access (s : State F) (m : Option Member) : State F :=
  if s.creator = .destroyed then { s with dangling := s.dangling ++ m.toList } else s

/-- The step of the new thread. -/
def stepRun (s : State F) : Option (State F) :=
  match s.child with
  | some c =>
      match c.todo with
      | st :: todo =>
          some { (s.write c st).access st.member? with
            child := some { s.exec c st with todo := todo } }
      | [] => none
  | none => none

/-- What a step does. -/
def step : Action → State F → Option (State F)
  | .create none, s =>
      if s.creator = .creates then some { s with creator := .thrown } else none
  | .create (some tid), s =>
      if s.creator = .creates then
        some { s with
          creator := .waits
          child := some { tid := tid, tThread := false, tThreadName := "UNKNOW", cb := none,
                          todo := Thread.run } }
      else none
  | .wait, s =>
      if s.creator = .waits ∧ 0 < s.mSemaphore then
        some { s with creator := .returned, mSemaphore := s.mSemaphore - 1 }
      else none
  | .interrupt, s =>
      if s.creator = .waits then some { s with creator := .returned } else none
  | .destroy, s =>
      if s.creator = .returned then some { s with creator := .destroyed } else none
  | .run, s => s.stepRun

end State

/-- A `Thread` that is constructed with `cb` and `name`. -/
def system {F : Type} (cb : F) (name : String) : Transition.System (State F) Action where
  init s := s = .new cb name
  step := State.step

/-! ### The order of the statements -/

/-- What is left of `run` contains each statement once. -/
theorem nodup_of_suffix {todo : List Stmt} (h : todo <:+ run) :
  todo.Nodup
  := by
  have hrun : run.Nodup := by decide
  apply hrun.sublist h.sublist

/-- The notification comes behind the swap. -/
theorem swapCb_notMem {todo : List Stmt} (h : todo <:+ run) (hnotify : .notify ∉ todo) :
  .swapCb ∉ todo
  := by
  have hall : ∀ l ∈ run.tails, .notify ∉ l → .swapCb ∉ l := by decide
  apply hall todo ((List.mem_tails todo run).mpr h) hnotify

/-- The swap comes behind the other accesses. -/
theorem copyName_setId_notMem {todo : List Stmt} (h : todo <:+ run) (hswap : .swapCb ∉ todo) :
  .copyName ∉ todo ∧ .setId ∉ todo
  := by
  have hall : ∀ l ∈ run.tails, .swapCb ∉ l → .copyName ∉ l ∧ .setId ∉ l := by decide
  apply hall todo ((List.mem_tails todo run).mpr h) hswap

/-! ### The writes of the new thread -/

namespace State

variable {F : Type}

/-- What the new thread has written, by the statements that are left. -/
structure Progress (cb : F) (s : State F) (c : Child F) : Prop where
  todo : c.todo <:+ run
  name : .copyName ∉ c.todo → c.tThreadName = s.mName
  id : .setId ∉ c.todo → s.mId = c.tid.val
  before : .swapCb ∈ c.todo → s.mCb = some cb ∧ c.cb = none
  behind : .swapCb ∉ c.todo → s.mCb = none ∧ c.cb = some cb
  token : 0 < s.mSemaphore → .notify ∉ c.todo

/-- What holds in each state. -/
structure Inv (cb : F) (name : String) (s : State F) : Prop where
  name : s.mName = if name = "" then "UNKNOW" else name
  child : ∀ c, s.child = some c → s.Progress cb c
  absent : s.child = none → s.creator = .creates ∨ s.creator = .thrown
  fresh : s.creator = .creates → s.child = none ∧ s.mCb = some cb ∧ s.mSemaphore = 0

theorem new_inv (cb : F) (name : String) :
  (new cb name).Inv cb name
  where
  name := rfl
  child := by rintro c ⟨⟩
  absent _ := .inl rfl
  fresh _ := ⟨rfl, rfl, rfl⟩

variable {cb : F} {name : String} {s s' : State F}

theorem write_creator (c : Child F) (st : Stmt) :
  (s.write c st).creator = s.creator
  := by
  cases st <;> rfl

theorem write_mName (c : Child F) (st : Stmt) :
  (s.write c st).mName = s.mName
  := by
  cases st <;> rfl

/-- The new thread executes a statement. -/
theorem Progress.exec {c : Child F} (h : s.Progress cb c) {st : Stmt} {todo : List Stmt}
    (htodo : c.todo = st :: todo) :
  (s.write c st).Progress cb { s.exec c st with todo := todo }
  := by
  obtain ⟨hst, -⟩ := List.nodup_cons.mp (htodo ▸ nodup_of_suffix h.todo)
  obtain ⟨hsuffix, hname, hid, hbefore, hbehind, htoken⟩ := h
  rw [htodo] at hsuffix hname hid hbefore hbehind htoken
  constructor
  case todo => apply (List.suffix_cons st todo).trans hsuffix
  case name =>
    intro h
    rw [write_mName]
    cases st with
    | copyName => rfl
    | _ => exact hname (by simp [h])
  case id =>
    intro h
    cases st with
    | setId => rfl
    | _ => exact hid (by simp [h])
  case before =>
    intro h
    cases st with
    | swapCb => exact absurd h hst
    | _ => exact hbefore (List.mem_cons_of_mem _ h)
  case behind =>
    intro h
    cases st with
    | swapCb => exact (hbefore List.mem_cons_self).symm
    | _ => exact hbehind (by simp [h])
  case token =>
    intro hpos
    cases st with
    | notify => apply hst
    | _ => exact fun h => htoken hpos (List.mem_cons_of_mem _ h)

/-- The members that the new thread uses are the same. -/
theorem Progress.congr {c : Child F} (h : s.Progress cb c) (hname : s'.mName = s.mName)
    (hid : s'.mId = s.mId) (hcb : s'.mCb = s.mCb)
    (htoken : 0 < s'.mSemaphore → 0 < s.mSemaphore) :
  s'.Progress cb c
  where
  todo := h.todo
  name := hname ▸ h.name
  id := hid ▸ h.id
  before := hcb ▸ h.before
  behind := hcb ▸ h.behind
  token hpos := h.token (htoken hpos)

/-- An access changes no member. -/
theorem access_eq (s : State F) (m : Option Member) :
  ∃ dangling, s.access m = { s with dangling := dangling } ∧
    (.mCb ∈ dangling → .mCb ∈ s.dangling ∨ s.creator = .destroyed ∧ m = some .mCb)
  := by
  unfold access
  split
  case isTrue h =>
    refine ⟨_, rfl, fun hmem => ?_⟩
    obtain hmem | hmem := List.mem_append.mp hmem
    · exact .inl hmem
    · exact .inr ⟨h, by simpa using hmem⟩
  case isFalse => exact ⟨s.dangling, rfl, .inl⟩

/-- What a step of the new thread does. -/
theorem stepRun_cases (h : s.stepRun = some s') :
  ∃ c st todo dangling, s.child = some c ∧ c.todo = st :: todo ∧
    s' = { s.write c st with
      dangling := dangling, child := some { s.exec c st with todo := todo } } ∧
    (.mCb ∈ dangling → .mCb ∈ s.dangling ∨ s.creator = .destroyed ∧ st = .swapCb)
  := by
  unfold stepRun at h
  split at h
  case h_1 c hc =>
    split at h
    case h_1 st todo htodo =>
      obtain ⟨dangling, haccess, hmem⟩ := access_eq (s.write c st) st.member?
      refine ⟨c, st, todo, dangling, hc, htodo, ?_, fun hcb => ?_⟩
      · rw [← Option.some.inj h, haccess]
      · have hsame : (s.write c st).dangling = s.dangling := by cases st <;> rfl
        rw [hsame, write_creator] at hmem
        refine (hmem hcb).imp_right (And.imp_right fun hst => ?_)
        cases st <;> simp [Stmt.member?] at hst ⊢
    case h_2 => cases h
  case h_2 => cases h

/-- The creating thread moves to another place. -/
theorem Inv.move (h : s.Inv cb name) {creator : Creator} {n : ℕ}
    (hn : 0 < n → 0 < s.mSemaphore) (hcreator : creator ≠ .creates)
    (habsent : s.child = none → creator = .thrown) :
  Inv cb name { s with creator := creator, mSemaphore := n }
  where
  name := h.name
  child c hc := (h.child c hc).congr rfl rfl rfl hn
  absent hc := .inr (habsent hc)
  fresh hc := absurd hc hcreator

/-- Behind `pthread_create` there is a new thread. -/
theorem Inv.child_ne_none (h : s.Inv cb name) (hcreates : s.creator ≠ .creates)
    (hthrown : s.creator ≠ .thrown) :
  s.child ≠ none
  := by
  intro hc
  obtain habsent | habsent := h.absent hc
  · apply hcreates habsent
  · apply hthrown habsent

theorem Inv.step (h : s.Inv cb name) {a : Action} (hstep : step a s = some s') :
  s'.Inv cb name
  := by
  cases a with
  | create tid =>
      cases tid with
      | none =>
          simp only [State.step, Option.ite_none_right_eq_some, Option.some.injEq] at hstep
          obtain ⟨-, rfl⟩ := hstep
          apply h.move (n := s.mSemaphore) id
          · simp
          · exact fun _ => rfl
      | some tid =>
          simp only [State.step, Option.ite_none_right_eq_some, Option.some.injEq] at hstep
          obtain ⟨hcreates, rfl⟩ := hstep
          obtain ⟨-, hcb, hsem⟩ := h.fresh hcreates
          have hmem : ∀ st, st ∈ Thread.run := by
            intro st
            cases st <;> decide
          constructor
          case name => apply h.name
          case child =>
            rintro c ⟨⟩
            constructor
            case todo => exact List.suffix_refl _
            case name => exact fun hst => absurd (hmem _) hst
            case id => exact fun hst => absurd (hmem _) hst
            case before => exact fun _ => ⟨hcb, rfl⟩
            case behind => exact fun hst => absurd (hmem _) hst
            case token => simp [hsem]
          case absent => simp
          case fresh => simp
  | wait =>
      simp only [State.step, Option.ite_none_right_eq_some, Option.some.injEq] at hstep
      obtain ⟨⟨hwaits, hpos⟩, rfl⟩ := hstep
      apply h.move fun _ => hpos
      · simp
      · exact fun hc => absurd hc (h.child_ne_none (by simp [hwaits]) (by simp [hwaits]))
  | interrupt =>
      simp only [State.step, Option.ite_none_right_eq_some, Option.some.injEq] at hstep
      obtain ⟨hwaits, rfl⟩ := hstep
      apply h.move (n := s.mSemaphore) id
      · simp
      · exact fun hc => absurd hc (h.child_ne_none (by simp [hwaits]) (by simp [hwaits]))
  | destroy =>
      simp only [State.step, Option.ite_none_right_eq_some, Option.some.injEq] at hstep
      obtain ⟨hreturned, rfl⟩ := hstep
      apply h.move (n := s.mSemaphore) id
      · simp
      · exact fun hc => absurd hc (h.child_ne_none (by simp [hreturned]) (by simp [hreturned]))
  | run =>
      obtain ⟨c, st, todo, dangling, hc, htodo, rfl, -⟩ := stepRun_cases hstep
      have hprogress := (h.child c hc).exec htodo
      constructor
      case name =>
        rw [← h.name]
        apply write_mName
      case child =>
        rintro c' ⟨⟩
        exact hprogress.congr rfl rfl rfl id
      case absent => simp
      case fresh =>
        intro hcreates
        have hnone := (h.fresh ((write_creator c st).symm.trans hcreates)).1
        rw [hc] at hnone
        cases hnone

/-! ### The return of the constructor -/

/-- The id of a thread is not the one for any thread. -/
theorem ofInt_tid_ne (tid : Tid) :
  BitVec.ofInt 32 tid.val ≠ -1
  := by
  have hpos := tid.pos
  have hlt := tid.lt
  intro h
  have hint := congrArg BitVec.toInt h
  rw [BitVec.toInt_ofInt, Int.bmod_eq_of_le (by omega) (by omega)] at hint
  have hneg : (-1 : BitVec 32).toInt = -1 := by decide
  omega

/-- The new thread has stored its id, copied the name and moved the callback out. -/
def Started (cb : F) (name : String) (s : State F) : Prop :=
  ∃ c, s.child = some c ∧ s.mId = c.tid.val ∧ s.getId ≠ -1 ∧
    c.tThreadName = (if name = "" then "UNKNOW" else name) ∧ s.mCb = none ∧ c.cb = some cb

/-- The new thread has executed the swap. -/
def Swapped (s : State F) : Prop :=
  ∃ c, s.child = some c ∧ .swapCb ∉ c.todo

/-- Behind the constructor the new thread has started, and it never accesses `m_cb` of a
destroyed `Thread`. -/
structure Safe (cb : F) (name : String) (s : State F) : Prop where
  started : s.creator = .returned ∨ s.creator = .destroyed → s.Started cb name
  dangling : .mCb ∉ s.dangling

theorem Inv.started_iff (h : s.Inv cb name) :
  s.Started cb name ↔ s.Swapped
  := by
  constructor
  · rintro ⟨c, hc, -, -, -, hnone, -⟩
    use c, hc
    intro hmem
    have hsome := ((h.child c hc).before hmem).1
    rw [hnone] at hsome
    cases hsome
  · rintro ⟨c, hc, hswap⟩
    have hprogress := h.child c hc
    obtain ⟨hcopy, hset⟩ := copyName_setId_notMem hprogress.todo hswap
    obtain ⟨hnone, hcb⟩ := hprogress.behind hswap
    have hid := hprogress.id hset
    have hne : s.getId ≠ -1 := by
      rw [getId, hid]
      apply ofInt_tid_ne
    exact ⟨c, hc, hid, hne, (hprogress.name hcopy).trans h.name, hnone, hcb⟩

/-- A token tells that the new thread has executed the swap. -/
theorem Inv.swapped_of_token (h : s.Inv cb name) (hwaits : s.creator = .waits)
    (hpos : 0 < s.mSemaphore) :
  s.Swapped
  := by
  obtain ⟨c, hc⟩ := Option.ne_none_iff_exists'.mp
    (h.child_ne_none (by simp [hwaits]) (by simp [hwaits]))
  have hprogress := h.child c hc
  exact ⟨c, hc, swapCb_notMem hprogress.todo (hprogress.token hpos)⟩

/-- A signal comes behind the swap of the new thread. -/
def NotInterrupted (a : Action) (s : State F) : Prop :=
  a = .interrupt → s.Swapped

/-- A step keeps the constructor safe if and only if no signal comes too early. -/
theorem Safe.step_iff (h : s.Safe cb name) (hinv : s.Inv cb name) {a : Action}
    (hstep : step a s = some s') :
  s'.Safe cb name ↔ NotInterrupted a s
  := by
  have hinv' := hinv.step hstep
  cases a with
  | create tid =>
      refine iff_of_true ?_ (by rintro ⟨⟩)
      cases tid with
      | none =>
          simp only [State.step, Option.ite_none_right_eq_some, Option.some.injEq] at hstep
          obtain ⟨-, rfl⟩ := hstep
          exact ⟨by simp, h.dangling⟩
      | some tid =>
          simp only [State.step, Option.ite_none_right_eq_some, Option.some.injEq] at hstep
          obtain ⟨-, rfl⟩ := hstep
          exact ⟨by simp, h.dangling⟩
  | wait =>
      refine iff_of_true ?_ (by rintro ⟨⟩)
      simp only [State.step, Option.ite_none_right_eq_some, Option.some.injEq] at hstep
      obtain ⟨⟨hwaits, hpos⟩, rfl⟩ := hstep
      have hswapped := hinv.swapped_of_token hwaits hpos
      exact ⟨fun _ => hinv'.started_iff.mpr hswapped, h.dangling⟩
  | interrupt =>
      simp only [State.step, Option.ite_none_right_eq_some, Option.some.injEq] at hstep
      obtain ⟨-, rfl⟩ := hstep
      constructor
      · exact fun hs' _ => hinv'.started_iff.mp (hs'.started (.inl rfl))
      · exact fun hswapped => ⟨fun _ => hinv'.started_iff.mpr (hswapped rfl), h.dangling⟩
  | destroy =>
      refine iff_of_true ?_ (by rintro ⟨⟩)
      simp only [State.step, Option.ite_none_right_eq_some, Option.some.injEq] at hstep
      obtain ⟨hreturned, rfl⟩ := hstep
      exact ⟨fun _ => h.started (.inl hreturned), h.dangling⟩
  | run =>
      refine iff_of_true ?_ (by rintro ⟨⟩)
      obtain ⟨c, st, todo, dangling, hc, htodo, rfl, hdangling⟩ := stepRun_cases hstep
      have hswapped : s.creator = .returned ∨ s.creator = .destroyed → .swapCb ∉ st :: todo := by
        intro hbehind
        obtain ⟨c', hc', hswap⟩ := hinv.started_iff.mp (h.started hbehind)
        obtain rfl := Option.some.inj (hc.symm.trans hc')
        exact htodo ▸ hswap
      constructor
      case started =>
        intro hbehind
        simp only [write_creator] at hbehind
        apply hinv'.started_iff.mpr
        exact ⟨_, rfl, fun hmem => hswapped hbehind (List.mem_cons_of_mem st hmem)⟩
      case dangling =>
        intro hmem
        obtain hmem | ⟨hdestroyed, rfl⟩ := hdangling hmem
        · apply h.dangling hmem
        · apply hswapped (.inr hdestroyed) List.mem_cons_self

end State

/-- In a run, the constructor is safe in every state if and only if no signal interrupts
`sem_wait` in front of the swap of the new thread. -/
theorem along_safe_iff {F : Type} (cb : F) (name : String) (as : List Action) {s : State F}
    (hexec : (system cb name).exec as (.new cb name) = some s) :
  (system cb name).Along (State.Safe cb name) as (.new cb name) ↔
    (system cb name).Meets State.NotInterrupted as (.new cb name)
  := by
  have hinv : ∀ a s s', s.Inv cb name → (system cb name).step a s = some s' →
      s'.Inv cb name := fun a s s' hs hstep => hs.step hstep
  have hstep : ∀ a s s', s.Inv cb name → s.Safe cb name →
      (system cb name).step a s = some s' → (s'.Safe cb name ↔ State.NotInterrupted a s) :=
    fun a s s' hs hsafe hstep => hsafe.step_iff hs hstep
  have hnew : (State.new cb name).Safe cb name := by
    constructor
    case started => simp [State.new]
    case dangling => simp [State.new]
  apply Transition.System.along_iff_meets_of_any hinv hstep (State.new_inv cb name) hnew as hexec

/-- The new thread starts, and a signal comes behind its swap. -/
def lateSignal : List Action :=
  [.create (some ⟨7, by decide, by decide⟩), .run, .run, .run, .run, .run, .interrupt, .destroy,
    .run, .run]

/-- A signal comes first. The `Thread` is destroyed, and then the new thread runs. -/
def earlySignal : List Action :=
  [.create (some ⟨7, by decide, by decide⟩), .interrupt, .destroy, .run, .run, .run, .run, .run]

theorem along_safe_iff_lateSignal :
  (system 5 "").Along (State.Safe 5 "") lateSignal (.new 5 "") ↔
    (system 5 "").Meets State.NotInterrupted lateSignal (.new 5 "")
  := along_safe_iff 5 "" lateSignal (s := ((system 5 "").exec lateSignal (.new 5 "")).get rfl) rfl

/-- The constructor returns in front of the write of the id, and the new thread reads `m_cb`
behind the destructor. -/
theorem earlySignal_unsafe :
  ((system 5 "").exec earlySignal (.new 5 "")).map (fun s => (s.creator, s.dangling)) =
      some (.destroyed, [.mName, .mId, .mName, .mCb]) ∧
    ¬ (system 5 "").Along (State.Safe 5 "") earlySignal (.new 5 "")
  := by
  refine ⟨rfl, fun h => ?_⟩
  have hreturned := ((h.2 _ rfl).2 _ rfl).1
  obtain ⟨_, _, _, hid, -⟩ := hreturned.started (.inl rfl)
  apply hid
  rfl

end Thread

end WbServer
