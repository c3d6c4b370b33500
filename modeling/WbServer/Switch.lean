import WbServer.Base.Transition
import WbServer.Fiber

/-!
# Switches between fibers

The fibers of one thread, with their contexts as `makecontext` and `swapcontext` leave them. A
fiber is entered by `call` from the thread main fiber, and then `back` returns to it, or by
`swap_in` from the scheduler main fiber, and then `swap_out` returns to it. The argument
`use_caller` of the constructor says which pair a fiber is for.

The yields always use `swap_out`, and `reset` always installs `MainFunc`, which ends with
`swap_out`. `Switch.meets_returns_iff` says when control returns to where a fiber has been
entered from.
-/

namespace WbServer

namespace Switch

/-! ### The code -/

/-- The functions that are given to `makecontext`. -/
inductive Entry where
  | mainFunc
  | callMainFunc
  deriving DecidableEq

/-- Where a stack is executed. -/
inductive Point where
  /-- Outside of the entry functions, on the stack of the thread. -/
  | main
  /-- In the callback, which an entry function calls for its variable `cur`. -/
  | callback (entry : Entry) (cur : FiberId)
  /-- Behind the last switch of an entry function, at the never-reach assertion. -/
  | ended
  deriving DecidableEq

/-- A `ucontext_t`. A stack is named by the fiber that has allocated it. -/
inductive Context where
  | made (stack : FiberId) (entry : Entry)
  | saved (stack : FiberId) (point : Point)

/-- A fiber: `m_state` and `m_ctx`, how it has been built, and how it has been entered. -/
structure Object where
  mState : Fiber.State
  mCtx : Context
  /-- The argument of the constructor. `Fiber()` has none, and allocates no stack. -/
  useCaller : Option Bool
  /-- The fiber that has last entered this one, and where it has done so. -/
  entered : Option (FiberId × Point)

/-- A thread. -/
structure Thread where
  fibers : FiberId → Object
  /-- The next `Fiber::ptr`. -/
  next : FiberId
  /-- `t_fiber`. -/
  tFiber : FiberId
  tThreadFiber : FiberId
  /-- What `Scheduler::GetMainFiber` returns. -/
  mainFiber : FiberId
  /-- The stack that is executed, and where. -/
  stack : FiberId
  point : Point

namespace Thread

/-- `Fiber::SetThis`. -/
def setThis (s : Thread) (f : FiberId) : Thread :=
  { s with tFiber := f }

/-- `Fiber::GetThis`, where `t_fiber` is set. -/
def getThis (s : Thread) : FiberId :=
  s.tFiber

/-- A fiber is modified. -/
def modify (s : Thread) (f : FiberId) (g : Object → Object) : Thread :=
  { s with fibers := Function.update s.fibers f (g (s.fibers f)) }

/-- A context is resumed. An entry function starts with `cur = GetThis()`. -/
def resume (s : Thread) : Context → Thread
  | .made stack entry => { s with stack := stack, point := .callback entry s.getThis }
  | .saved stack point => { s with stack := stack, point := point }

/-- `swapcontext(&src->m_ctx, &dst->m_ctx)`; the stack that is executed will go on at
`point`. -/
def swapcontext (s : Thread) (src dst : FiberId) (point : Point) : Thread :=
  let s := s.modify src fun f => { f with mCtx := .saved s.stack point }
  s.resume (s.fibers dst).mCtx

/-- The constructor of a fiber with a stack. -/
def construct (s : Thread) (useCaller : Bool) : Thread :=
  let entry : Entry := if useCaller then .callMainFunc else .mainFunc
  { s with
    fibers := Function.update s.fibers s.next
      { mState := .init
        mCtx := .made s.next entry
        useCaller := some useCaller
        entered := none }
    next := s.next + 1 }

/-- `Fiber::reset`. -/
def reset (s : Thread) (f : FiberId) : Option Thread :=
  if (s.fibers f).useCaller.isSome ∧ (s.fibers f).mState.Resettable then
    some (s.modify f fun o => { o with mCtx := .made f .mainFunc, mState := .init })
  else none

/-- The fiber `f` is about to be entered. -/
def enter (s : Thread) (f : FiberId) : Thread :=
  s.modify f fun o => { o with mState := .exec, entered := some (s.stack, s.point) }

/-- `Fiber::call`. -/
def call (s : Thread) (f : FiberId) : Thread :=
  ((s.setThis f).enter f).swapcontext s.tThreadFiber f s.point

/-- `Fiber::back`. -/
def back (s : Thread) (f : FiberId) (point : Point) : Thread :=
  (s.setThis s.tThreadFiber).swapcontext f s.tThreadFiber point

/-- `Fiber::swap_in`. -/
def swapIn (s : Thread) (f : FiberId) : Option Thread :=
  if (s.fibers f).mState = .exec then none
  else some (((s.setThis f).enter f).swapcontext s.mainFiber f s.point)

/-- `Fiber::swap_out`. -/
def swapOut (s : Thread) (f : FiberId) (point : Point) : Thread :=
  (s.setThis s.mainFiber).swapcontext f s.mainFiber point

/-- The yields, which set the state of the current fiber. -/
def yieldTo (s : Thread) (state : Fiber.State) : Thread :=
  let cur := s.getThis
  (s.modify cur fun o => { o with mState := state }).swapOut cur s.point

/-- `Fiber::YieldToReady`. -/
def yieldToReady (s : Thread) : Thread := s.yieldTo .ready

/-- `Fiber::YeidToHold`. -/
def yeidToHold (s : Thread) : Thread := s.yieldTo .hold

/-- The state that an entry function sets when the callback has returned or thrown. -/
def endState (throws : Bool) : Fiber.State :=
  if throws then .except else .term

/-- The end of `Fiber::MainFunc`. -/
def mainFunc (s : Thread) (cur : FiberId) (throws : Bool) : Thread :=
  (s.modify cur fun o => { o with mState := endState throws }).swapOut cur .ended

/-- The end of `Fiber::CallMainFunc`. -/
def callMainFunc (s : Thread) (cur : FiberId) (throws : Bool) : Thread :=
  (s.modify cur fun o => { o with mState := endState throws }).back cur .ended

end Thread

/-- What the code that is executed does next. -/
inductive Action where
  | construct (useCaller : Bool)
  | reset (f : FiberId)
  | call (f : FiberId)
  | swapIn (f : FiberId)
  | yieldToReady
  | yeidToHold
  /-- The callback ends. -/
  | finish (throws : Bool)

namespace Thread

/-- A step of the thread. There is none behind the end of an entry function. -/
def step (a : Action) (s : Thread) : Option Thread :=
  if s.point = .ended then none
  else
    match a with
    | .construct useCaller => some (s.construct useCaller)
    | .reset f => s.reset f
    | .call f => some (s.call f)
    | .swapIn f => s.swapIn f
    | .yieldToReady => some s.yieldToReady
    | .yeidToHold => some s.yeidToHold
    | .finish throws =>
        match s.point with
        | .callback .mainFunc cur => some (s.mainFunc cur throws)
        | .callback .callMainFunc cur => some (s.callMainFunc cur throws)
        | _ => none

/-- A thread behind the first `GetThis`. If `root`, a scheduler with `use_caller` has been
constructed, whose root fiber is the scheduler main fiber; otherwise that is the thread main
fiber. -/
def start (root : Bool) : Thread :=
  let s : Thread :=
    { fibers := fun _ =>
        { mState := .exec, mCtx := .saved 0 .main, useCaller := none, entered := none }
      next := 1
      tFiber := 0
      tThreadFiber := 0
      mainFiber := 0
      stack := 0
      point := .main }
  if root then { s.construct true with mainFiber := s.next } else s

end Thread

/-- The transition system. -/
def system (root : Bool) : Transition.System Thread Action where
  init s := s = .start root
  step := Thread.step

/-! ### Where control returns to -/

namespace Thread

/-- The fiber from which a fiber is to be entered. -/
def entering (s : Thread) : Bool → FiberId
  | true => s.tThreadFiber
  | false => s.mainFiber

end Thread

namespace Action

/-- The action leaves the running fiber. -/
def Leaves : Action → Prop
  | yieldToReady => True
  | yeidToHold => True
  | finish _ => True
  | _ => False

theorem Leaves.cases {a : Action} (h : a.Leaves) :
  a = .yieldToReady ∨ a = .yeidToHold ∨ ∃ throws, a = .finish throws
  := by
  cases a with
  | yieldToReady => exact .inl rfl
  | yeidToHold => exact .inr (.inl rfl)
  | finish throws => exact .inr (.inr ⟨throws, rfl⟩)
  | construct _ => exact h.elim
  | reset _ => exact h.elim
  | call _ => exact h.elim
  | swapIn _ => exact h.elim

/-- A fiber is entered by the function that matches its construction, and yields are executed
in fibers. -/
def Legal : Action → Thread → Prop
  | call f, s => (s.fibers f).useCaller = some true ∧ s.stack = s.tThreadFiber
  | swapIn f, s => (s.fibers f).useCaller = some false ∧ s.stack = s.mainFiber
  | yieldToReady, s => s.point ≠ .main
  | yeidToHold, s => s.point ≠ .main
  | _, _ => True

/-- Control returns to the fiber that has entered the running one, behind the entry, and
`GetThis` reports it. -/
def Returns (a : Action) (s : Thread) : Prop :=
  a.Leaves → ∃ useCaller point,
    (s.fibers s.stack).useCaller = some useCaller ∧
    (s.fibers s.stack).entered = some (s.entering useCaller, point) ∧
    ∀ s', s.step a = some s' →
      s'.stack = s.entering useCaller ∧ s'.point = point ∧ s'.getThis = s.entering useCaller

/-- The two main fibers are one, the running fiber is entered by `swap_in`, or it ends in
`CallMainFunc`. -/
def Matched (a : Action) (s : Thread) : Prop :=
  a.Leaves → s.mainFiber = s.tThreadFiber ∨ (s.fibers s.stack).useCaller = some false ∨
    (∃ throws, a = finish throws) ∧ ∃ cur, s.point = .callback .callMainFunc cur

end Action

/-! ### The running fiber has been entered -/

/-- A point of the fiber `f`, where `b` is the argument `use_caller` of its constructor. -/
def Point.Of (f : FiberId) (b : Bool) (p : Point) : Prop :=
  p = .ended ∨ ∃ entry, p = .callback entry f ∧ (b = false → entry = .mainFunc)

/-- A context of the fiber `f` on its own stack. -/
inductive Context.Of (f : FiberId) (b : Bool) : Context → Prop where
  | made {entry : Entry} (h : b = false → entry = .mainFunc) : Of f b (.made f entry)
  | saved {p : Point} (h : p.Of f b) : Of f b (.saved f p)

namespace Thread

variable {s t s' : Thread}

/-- The fiber `f` has been entered from the fiber that it is to be entered from, which is
suspended there at the point `q`. -/
structure Link (s : Thread) (f : FiberId) (b : Bool) (q : Point) : Prop where
  useCaller : (s.fibers f).useCaller = some b
  mState : (s.fibers f).mState = .exec
  entered : (s.fibers f).entered = some (s.entering b, q)
  mCtx : (s.fibers (s.entering b)).mCtx = .saved (s.entering b) q

/-- The fiber `f` is executed at the point `p`: from the thread main fiber up to it, each fiber
has entered the next one. -/
inductive Running (s : Thread) : FiberId → Point → Prop where
  | main : Running s s.tThreadFiber .main
  | enter {f : FiberId} {b : Bool} {p q : Point} (hlink : s.Link f b q)
      (hbelow : Running s (s.entering b) q) (hpoint : p.Of f b) : Running s f p

/-- What holds as long as control returns to where fibers have been entered from. A context is
on the stack of its own fiber then, as `Fiber.Context` takes for granted. -/
structure Inv (s : Thread) : Prop where
  current : s.tFiber = s.stack
  alloc : ∀ f, s.next ≤ f → (s.fibers f).useCaller = none
  lt : s.tThreadFiber < s.next
  threadFiber : (s.fibers s.tThreadFiber).useCaller = none
  mainFiber : s.mainFiber = s.tThreadFiber ∨ (s.fibers s.mainFiber).useCaller = some true
  mCtx : ∀ f b, (s.fibers f).useCaller = some b → (s.fibers f).mCtx.Of f b
  running : s.Running s.stack s.point

/-- The thread main fiber is executed, or a fiber that has been entered. -/
theorem Running.main_or_enter {f : FiberId} {p : Point} (h : s.Running f p) :
  (f = s.tThreadFiber ∧ p = .main) ∨
    ∃ b q, s.Link f b q ∧ s.Running (s.entering b) q ∧ p.Of f b
  := by
  cases h with
  | main => exact .inl ⟨rfl, rfl⟩
  | enter hlink hbelow hpoint => exact .inr ⟨_, _, hlink, hbelow, hpoint⟩

/-! ### Switches -/

@[simp]
theorem resume_tFiber (c : Context) :
  (s.resume c).tFiber = s.tFiber
  := by cases c <;> rfl

/-- A fiber that is resumed on its own stack. -/
theorem resume_of {f : FiberId} {b : Bool} {c : Context} (h : c.Of f b) (hf : s.tFiber = f) :
  ∃ p, p.Of f b ∧ s.resume c = { s with stack := f, point := p }
  := by
  cases h with
  | made hentry => exact ⟨.callback _ s.tFiber, .inr ⟨_, by rw [hf], hentry⟩, rfl⟩
  | saved hp => exact ⟨_, hp, rfl⟩

/-- What leaves the running fiber: its state is set, and `dst` goes on. -/
def leave (s : Thread) (dst : FiberId) (state : Fiber.State) (p : Point) : Thread :=
  ((s.modify s.stack fun o => { o with mState := state }).setThis dst).swapcontext s.stack dst p

@[simp]
theorem leave_tFiber (dst : FiberId) (state : Fiber.State) (p : Point) :
  (s.leave dst state p).tFiber = dst
  := resume_tFiber _

/-- Leaving to a fiber that is suspended. -/
theorem leave_eq {dst : FiberId} (state : Fiber.State) (p : Point) {q : Point}
    (hne : dst ≠ s.stack) (hctx : (s.fibers dst).mCtx = .saved dst q) :
  s.leave dst state p =
    { s.modify s.stack fun o => { o with mState := state, mCtx := .saved s.stack p } with
      tFiber := dst, stack := dst, point := q }
  := by
  simp [leave, swapcontext, setThis, modify, hne, hctx, resume]

/-- The pointers stay as they are, and how each fiber has been built. -/
structure Frame (s t : Thread) : Prop where
  next : t.next = s.next
  tThreadFiber : t.tThreadFiber = s.tThreadFiber
  mainFiber : t.mainFiber = s.mainFiber
  useCaller : ∀ f, (t.fibers f).useCaller = (s.fibers f).useCaller

namespace Frame

theorem trans {u : Thread} (h : s.Frame t) (h' : t.Frame u) :
  s.Frame u
  := by
  constructor
  case next => exact h'.next.trans h.next
  case tThreadFiber => exact h'.tThreadFiber.trans h.tThreadFiber
  case mainFiber => exact h'.mainFiber.trans h.mainFiber
  case useCaller => exact fun f => (h'.useCaller f).trans (h.useCaller f)

theorem modify (f : FiberId) {g : Object → Object} (hg : ∀ o, (g o).useCaller = o.useCaller) :
  s.Frame (s.modify f g)
  := by
  constructor
  case next => rfl
  case tThreadFiber => rfl
  case mainFiber => rfl
  case useCaller =>
    intro f'
    by_cases hf : f' = f
    · simp [hf, Thread.modify, hg]
    · simp [hf, Thread.modify]

theorem resume (c : Context) :
  s.Frame (s.resume c)
  := by
  cases c with
  | made _ _ => exact ⟨rfl, rfl, rfl, fun _ => rfl⟩
  | saved _ _ => exact ⟨rfl, rfl, rfl, fun _ => rfl⟩

theorem setThis (f : FiberId) :
  s.Frame (s.setThis f)
  := ⟨rfl, rfl, rfl, fun _ => rfl⟩

theorem swapcontext (src dst : FiberId) (p : Point) :
  s.Frame (s.swapcontext src dst p)
  := by
  apply trans _ (resume _)
  exact modify src fun _ => rfl

theorem leave (dst : FiberId) (state : Fiber.State) (p : Point) :
  s.Frame (s.leave dst state p)
  := by
  apply trans _ (swapcontext s.stack dst p)
  apply trans _ (setThis dst)
  exact modify s.stack fun _ => rfl

theorem enter (src f : FiberId) (p : Point) :
  s.Frame (((s.setThis f).enter f).swapcontext src f p)
  := by
  apply trans _ (swapcontext src f p)
  apply trans (setThis f)
  exact modify f fun _ => rfl

end Frame

theorem entering_eq (hthread : t.tThreadFiber = s.tThreadFiber)
    (hmain : t.mainFiber = s.mainFiber) (b : Bool) :
  t.entering b = s.entering b
  := by
  cases b with
  | true => exact hthread
  | false => exact hmain

/-! ### Keeping the invariant -/

namespace Inv

/-- The fiber that another one is entered from is not that fiber. -/
theorem entering_ne (h : s.Inv) {f : FiberId} {b : Bool}
    (hf : (s.fibers f).useCaller = some b) :
  s.entering b ≠ f
  := by
  rintro rfl
  cases b with
  | true => simp [entering, h.threadFiber] at hf
  | false =>
      obtain hmain | hmain := h.mainFiber
      · simp [entering, hmain, h.threadFiber] at hf
      · simp [entering, hmain] at hf

theorem threadFiber_ne (h : s.Inv) {f : FiberId} {b : Bool}
    (hf : (s.fibers f).useCaller = some b) :
  s.tThreadFiber ≠ f
  := by
  rintro rfl
  simp [h.threadFiber] at hf

/-- The thread main fiber is executed outside of the entry functions. -/
theorem running_main (h : s.Inv) {p : Point} (hrun : s.Running s.tThreadFiber p) :
  p = .main
  := by
  cases hrun with
  | main => rfl
  | enter hlink => exact absurd rfl (h.threadFiber_ne hlink.useCaller)

/-- The point of a fiber with a stack. -/
theorem running_of (h : s.Inv) {f : FiberId} {b : Bool} {p : Point} (hrun : s.Running f p)
    (hf : (s.fibers f).useCaller = some b) :
  p.Of f b
  := by
  cases hrun with
  | main => exact absurd rfl (h.threadFiber_ne hf)
  | enter hlink _ hpoint =>
      obtain rfl := Option.some.inj (hlink.useCaller.symm.trans hf)
      apply hpoint

/-- The fibers below `f` depend on `f` in nothing, and neither on the context of the fiber that
`f` is entered from. -/
theorem running_below (h : s.Inv) (hframe : s.Frame t) {f : FiberId} {b : Bool} {q : Point}
    (hf : (s.fibers f).useCaller = some b) (hrun : s.Running (s.entering b) q)
    (hfibers : ∀ g, g ≠ f →
      (t.fibers g).mState = (s.fibers g).mState ∧ (t.fibers g).entered = (s.fibers g).entered)
    (hctx : ∀ g, g ≠ f → g ≠ s.entering b → (t.fibers g).mCtx = (s.fibers g).mCtx) :
  t.Running (s.entering b) q
  := by
  have hthread := hframe.tThreadFiber
  cases b with
  | true =>
      obtain rfl := h.running_main hrun
      simp only [entering, ← hthread]
      apply Running.main
  | false =>
      simp only [entering] at hrun hctx ⊢
      obtain ⟨hstate, hentered⟩ := hfibers s.mainFiber (h.entering_ne hf)
      obtain ⟨hS, rfl⟩ | ⟨b, r, hlink, hbelow, hpoint⟩ := hrun.main_or_enter
      · rw [hS, ← hthread]
        apply Running.main
      · -- the scheduler main fiber has been entered from the thread main fiber
        have hne : s.tThreadFiber ≠ s.mainFiber := h.threadFiber_ne hlink.useCaller
        have hroot : (s.fibers s.mainFiber).useCaller = some true :=
          h.mainFiber.resolve_left hne.symm
        obtain rfl : b = true := Option.some.inj (hlink.useCaller.symm.trans hroot)
        obtain rfl := h.running_main hbelow
        have hsuspended : (t.fibers s.tThreadFiber).mCtx = .saved s.tThreadFiber .main := by
          rw [hctx s.tThreadFiber (h.threadFiber_ne hf) hne]
          apply hlink.mCtx
        apply Running.enter (b := true) (q := .main) _ _ hpoint
        · constructor
          case useCaller => rw [hframe.useCaller, hroot]
          case mState => rw [hstate, hlink.mState]
          case entered =>
            rw [hentered, hlink.entered]
            simp only [entering, hthread]
          case mCtx => simpa only [entering, hthread] using hsuspended
        · apply Running.main

/-- An update that keeps how fibers have been built. -/
theorem update (h : s.Inv) (hframe : s.Frame t)
    (hctx : ∀ f b, (s.fibers f).useCaller = some b → (t.fibers f).mCtx.Of f b)
    (hcurrent : t.tFiber = t.stack) (hrunning : t.Running t.stack t.point) :
  t.Inv
  := by
  constructor
  case current => apply hcurrent
  case alloc =>
    intro f hf
    rw [hframe.useCaller]
    exact h.alloc f (hframe.next ▸ hf)
  case lt => rw [hframe.tThreadFiber, hframe.next]; exact h.lt
  case threadFiber => rw [hframe.tThreadFiber, hframe.useCaller]; exact h.threadFiber
  case mainFiber =>
    rw [hframe.tThreadFiber, hframe.mainFiber, hframe.useCaller]
    exact h.mainFiber
  case mCtx =>
    intro f b hf
    rw [hframe.useCaller] at hf
    apply hctx f b hf
  case running => apply hrunning

/-- Leaving the running fiber to the fiber that has entered it. -/
theorem leave (h : s.Inv) {b : Bool} {p q : Point} (hlink : s.Link s.stack b q)
    (hbelow : s.Running (s.entering b) q) (hp : p.Of s.stack b) (state : Fiber.State) :
  (s.leave (s.entering b) state p).Inv
  := by
  have hframe := Frame.leave (s := s) (s.entering b) state p
  have heq := leave_eq state p (h.entering_ne hlink.useCaller) hlink.mCtx
  generalize s.leave (s.entering b) state p = t at heq hframe
  have hself : (t.fibers s.stack).mCtx = .saved s.stack p := by
    simp [heq, modify]
  have hother (g : FiberId) (hg : g ≠ s.stack) : t.fibers g = s.fibers g := by
    simp [heq, modify, hg]
  apply h.update hframe
  case hctx =>
    intro g b' hb
    by_cases hg : g = s.stack
    · subst hg
      obtain rfl := Option.some.inj (hlink.useCaller.symm.trans hb)
      rw [hself]
      apply Context.Of.saved hp
    · rw [hother g hg]
      exact h.mCtx g b' hb
  case hcurrent => simp [heq]
  case hrunning =>
    have hrun : t.Running (s.entering b) q := by
      apply h.running_below hframe hlink.useCaller hbelow
      · intro g hg
        simp [hother g hg]
      · intro g hg _
        rw [hother g hg]
    rwa [show t.stack = s.entering b by rw [heq], show t.point = q by rw [heq]]

/-- Entering a fiber by the function that matches its construction. -/
theorem enter (h : s.Inv) {f : FiberId} {b : Bool} (hf : (s.fibers f).useCaller = some b)
    (hstack : s.stack = s.entering b) :
  (((s.setThis f).enter f).swapcontext (s.entering b) f s.point).Inv
  := by
  have hne := h.entering_ne hf
  have hrun : s.Running (s.entering b) s.point := hstack ▸ h.running
  have hframe := Frame.enter (s := s) (s.entering b) f s.point
  -- both fibers are set up, and then the context of `f` is resumed
  let r := ((s.setThis f).enter f).modify (s.entering b) fun o =>
    { o with mCtx := .saved s.stack s.point }
  have hctx : (r.fibers f).mCtx.Of f b := by
    simpa [r, modify, Thread.enter, setThis, hne.symm] using h.mCtx f b hf
  obtain ⟨p, hp, heq⟩ := resume_of hctx (s := r) rfl
  change s.Frame (r.resume (r.fibers f).mCtx) at hframe
  change (r.resume (r.fibers f).mCtx).Inv
  generalize r.resume (r.fibers f).mCtx = t at heq hframe
  have hself : t.fibers f =
      { s.fibers f with mState := .exec, entered := some (s.stack, s.point) } := by
    simp [heq, r, modify, Thread.enter, setThis, hne.symm]
  have hfrom : t.fibers (s.entering b) =
      { s.fibers (s.entering b) with mCtx := .saved s.stack s.point } := by
    simp [heq, r, modify, Thread.enter, setThis, hne]
  have hother (g : FiberId) (hg : g ≠ f) (hg' : g ≠ s.entering b) :
      t.fibers g = s.fibers g := by
    simp [heq, r, modify, Thread.enter, setThis, hg, hg']
  apply h.update hframe
  case hctx =>
    intro g b' hb
    by_cases hg : g = f
    · rw [hg] at hb ⊢
      rw [hself]
      exact h.mCtx f b' hb
    · by_cases hg' : g = s.entering b
      · rw [hg'] at hb ⊢
        rw [hfrom, hstack]
        apply Context.Of.saved (h.running_of hrun hb)
      · rw [hother g hg hg']
        exact h.mCtx g b' hb
  case hcurrent => rw [heq]; rfl
  case hrunning =>
    have hbelow : t.Running (s.entering b) s.point := by
      apply h.running_below hframe hf hrun
      · intro g hg
        by_cases hg' : g = s.entering b
        · simp [hg', hfrom]
        · simp [hother g hg hg']
      · intro g hg hg'
        rw [hother g hg hg']
    have hentering : t.entering b = s.entering b :=
      entering_eq hframe.tThreadFiber hframe.mainFiber b
    have hlink : t.Link f b s.point := by
      constructor
      case useCaller => rw [hself, hf]
      case mState => rw [hself]
      case entered => rw [hself, hstack, hentering]
      case mCtx => rw [hentering, hfrom, hstack]
    rw [← hentering] at hbelow
    rw [show t.stack = f by rw [heq], show t.point = p by rw [heq]]
    apply hbelow.enter hlink hp

/-- An update of a fiber that is not executed. -/
theorem running_idle {f : FiberId} (hne : f ≠ s.tThreadFiber)
    (hidle : (s.fibers f).useCaller = none ∨ (s.fibers f).mState ≠ .exec)
    (hfibers : ∀ g, g ≠ f → t.fibers g = s.fibers g)
    (hthread : t.tThreadFiber = s.tThreadFiber) (hmain : t.mainFiber = s.mainFiber)
    {g : FiberId} {p : Point} (hrun : s.Running g p) :
  t.Running g p
  := by
  have hkept {g : FiberId} {p : Point} (hrun : s.Running g p) : t.fibers g = s.fibers g := by
    apply hfibers
    rintro rfl
    obtain ⟨hg, -⟩ | ⟨b, q, hlink, -⟩ := hrun.main_or_enter
    · exact hne hg
    · obtain hnone | hexec := hidle
      · simp only [hlink.useCaller, reduceCtorEq] at hnone
      · exact hexec hlink.mState
  induction hrun with
  | main => rw [← hthread]; apply Running.main
  | @enter g b p q hlink hbelow hpoint ih =>
      have hentering : t.entering b = s.entering b := entering_eq hthread hmain b
      have hself := hkept (hbelow.enter hlink hpoint)
      rw [← hentering] at ih
      apply ih.enter _ hpoint
      constructor
      case useCaller => rw [hself, hlink.useCaller]
      case mState => rw [hself, hlink.mState]
      case entered => rw [hself, hlink.entered, hentering]
      case mCtx => rw [hentering, hkept hbelow, hlink.mCtx]

theorem construct (h : s.Inv) (useCaller : Bool) :
  (s.construct useCaller).Inv
  := by
  have hnext : (s.fibers s.next).useCaller = none := h.alloc s.next le_rfl
  have hself : (s.construct useCaller).fibers s.next =
      { mState := .init
        mCtx := .made s.next (if useCaller then .callMainFunc else .mainFunc)
        useCaller := some useCaller
        entered := none } := by
    simp [Thread.construct]
  have hother (g : FiberId) (hg : g ≠ s.next) :
      (s.construct useCaller).fibers g = s.fibers g := by
    simp [Thread.construct, hg]
  constructor
  case current => exact h.current
  case alloc =>
    intro f hf
    rw [hother f (Nat.ne_of_gt hf)]
    exact h.alloc f (Nat.le_of_succ_le hf)
  case lt => exact Nat.lt_succ_of_lt h.lt
  case threadFiber => exact (hother s.tThreadFiber h.lt.ne).symm ▸ h.threadFiber
  case mainFiber =>
    apply h.mainFiber.imp id
    intro huse
    have hne : s.mainFiber ≠ s.next := by
      intro heq
      simp [heq, hnext] at huse
    exact (hother s.mainFiber hne).symm ▸ huse
  case mCtx =>
    intro f b hb
    by_cases hf : f = s.next
    · rw [hf, hself] at hb ⊢
      obtain rfl := Option.some.inj hb
      apply Context.Of.made
      rintro rfl
      rfl
    · rw [hother f hf] at hb ⊢
      exact h.mCtx f b hb
  case running => exact running_idle h.lt.ne' (.inl hnext) hother rfl rfl h.running

theorem reset (h : s.Inv) {f : FiberId} (hstep : s.reset f = some s') :
  s'.Inv
  := by
  simp only [Thread.reset, Option.ite_none_right_eq_some, Option.some.injEq] at hstep
  obtain ⟨⟨hstack, hstate⟩, rfl⟩ := hstep
  obtain ⟨b, hf⟩ := Option.isSome_iff_exists.mp hstack
  have hne : f ≠ s.tThreadFiber := (h.threadFiber_ne hf).symm
  have hidle : (s.fibers f).mState ≠ .exec := by
    intro hexec
    simp [hexec, Fiber.State.Resettable] at hstate
  let t := s.modify f fun o => { o with mCtx := .made f .mainFunc, mState := .init }
  have hself : (t.fibers f).mCtx = .made f .mainFunc := by
    simp [t, modify]
  have hother (g : FiberId) (hg : g ≠ f) : t.fibers g = s.fibers g := by
    simp [t, modify, hg]
  have hframe : s.Frame t := Frame.modify f fun _ => rfl
  change t.Inv
  apply h.update hframe
  case hctx =>
    intro g b hb
    by_cases hg : g = f
    · rw [hg, hself]
      exact Context.Of.made fun _ => rfl
    · rw [hother g hg]
      exact h.mCtx g b hb
  case hcurrent => exact h.current
  case hrunning => exact running_idle hne (.inr hidle) hother rfl rfl h.running

end Inv

/-! ### Steps -/

/-- Where the running fiber is to return to. -/
theorem matched_iff {a : Action} (ha : a.Leaves) {b : Bool}
    (hb : (s.fibers s.stack).useCaller = some b) :
  a.Matched s ↔ s.mainFiber = s.entering b ∨
    (∃ throws, a = .finish throws) ∧ ∃ cur, s.point = .callback .callMainFunc cur
  := by
  cases b with
  | true => simp [Action.Matched, ha, hb, entering]
  | false => simp [Action.Matched, ha, hb, entering]

/-- The yields leave the running fiber to the scheduler main fiber. -/
theorem Inv.yieldTo_eq (h : s.Inv) (state : Fiber.State) :
  s.yieldTo state = s.leave s.mainFiber state s.point
  := by
  rw [yieldTo, getThis, h.current]
  rfl

/-- A step that leaves the running fiber, which has been entered. It is matched if it leaves to
the fiber that has entered the running one. -/
theorem Inv.step_leaves (h : s.Inv) {a : Action} (ha : a.Leaves) (hlegal : a.Legal s)
    (hstep : s.step a = some s') :
  ∃ b q dst state p, s.Link s.stack b q ∧ s.Running (s.entering b) q ∧ p.Of s.stack b ∧
    s' = s.leave dst state p ∧ (a.Matched s ↔ dst = s.entering b)
  := by
  have hended : s.point ≠ .ended := by
    intro hp
    simp [step, hp] at hstep
  have hmain : s.point ≠ .main := by
    obtain rfl | rfl | ⟨throws, rfl⟩ := ha.cases
    · exact hlegal
    · exact hlegal
    · intro hp
      simp [step, hp] at hstep
  obtain ⟨-, hp⟩ | ⟨b, q, hlink, hbelow, hpoint⟩ := h.running.main_or_enter
  · exact absurd hp hmain
  · obtain ⟨entry, hentry, hb⟩ := hpoint.resolve_left hended
    have hmatched := matched_iff ha hlink.useCaller
    unfold step at hstep
    rw [if_neg hended] at hstep
    obtain rfl | rfl | ⟨throws, rfl⟩ := ha.cases
    · obtain rfl := Option.some.inj hstep
      refine ⟨b, q, s.mainFiber, .ready, s.point, hlink, hbelow, hpoint, h.yieldTo_eq .ready, ?_⟩
      simpa using hmatched
    · obtain rfl := Option.some.inj hstep
      refine ⟨b, q, s.mainFiber, .hold, s.point, hlink, hbelow, hpoint, h.yieldTo_eq .hold, ?_⟩
      simpa using hmatched
    · simp only [hentry] at hstep
      cases entry with
      | mainFunc =>
          obtain rfl := Option.some.inj hstep
          refine ⟨b, q, s.mainFiber, endState throws, .ended, hlink, hbelow, .inl rfl, rfl, ?_⟩
          simpa [hentry] using hmatched
      | callMainFunc =>
          obtain rfl := Option.some.inj hstep
          -- only a fiber for `call` executes this entry function
          obtain rfl : b = true := by
            cases b with
            | true => rfl
            | false => simp at hb
          refine ⟨true, q, s.tThreadFiber, endState throws, .ended, hlink, hbelow, .inl rfl,
            rfl, ?_⟩
          simpa [hentry, entering] using hmatched

/-- What a matched step keeps. -/
theorem Inv.step (h : s.Inv) {a : Action} (hlegal : a.Legal s) (hmatched : a.Matched s)
    (hstep : s.step a = some s') :
  s'.Inv
  := by
  by_cases ha : a.Leaves
  · obtain ⟨b, q, dst, state, p, hlink, hbelow, hp, rfl, hiff⟩ := h.step_leaves ha hlegal hstep
    rw [hiff.mp hmatched]
    apply h.leave hlink hbelow hp
  · unfold Thread.step at hstep
    rw [Option.ite_none_left_eq_some] at hstep
    obtain ⟨-, hstep⟩ := hstep
    cases a with
    | construct useCaller =>
        obtain rfl := Option.some.inj hstep
        apply h.construct
    | reset f => exact h.reset hstep
    | call f =>
        obtain rfl := Option.some.inj hstep
        exact h.enter hlegal.1 hlegal.2
    | swapIn f =>
        simp only [Thread.swapIn, Option.ite_none_left_eq_some, Option.some.injEq] at hstep
        obtain ⟨-, rfl⟩ := hstep
        exact h.enter hlegal.1 hlegal.2
    | yieldToReady => exact (ha trivial).elim
    | yeidToHold => exact (ha trivial).elim
    | finish throws => exact (ha trivial).elim

/-- A step returns to where the running fiber has been entered from if and only if it is
matched. -/
theorem Inv.returns_iff (h : s.Inv) {a : Action} (hlegal : a.Legal s)
    (hstep : s.step a = some s') :
  a.Returns s ↔ a.Matched s
  := by
  by_cases ha : a.Leaves
  · obtain ⟨b, q, dst, state, p, hlink, hbelow, hp, hs', hiff⟩ := h.step_leaves ha hlegal hstep
    rw [hiff]
    constructor
    · intro hreturns
      obtain ⟨b', q', huse, -, hall⟩ := hreturns ha
      obtain rfl := Option.some.inj (hlink.useCaller.symm.trans huse)
      obtain ⟨-, -, hthis⟩ := hall s' hstep
      rw [← hthis, hs']
      exact (leave_tFiber dst state p).symm
    · rintro rfl -
      refine ⟨b, q, hlink.useCaller, hlink.entered, ?_⟩
      intro t ht
      obtain rfl : t = _ := Option.some.inj (ht.symm.trans (hstep.trans (congrArg some hs')))
      rw [leave_eq state p (h.entering_ne hlink.useCaller) hlink.mCtx]
      exact ⟨rfl, rfl, rfl⟩
  · exact iff_of_true (fun h => absurd h ha) (fun h => absurd h ha)

theorem start_false_inv :
  (start false).Inv
  := by
  constructor
  case current => rfl
  case alloc => exact fun _ _ => rfl
  case lt => exact Nat.zero_lt_one
  case threadFiber => rfl
  case mainFiber => exact .inl rfl
  case mCtx =>
    intro f b hb
    cases hb
  case running => exact Running.main

theorem start_true_inv :
  (start true).Inv
  := by
  have h := start_false_inv.construct true
  constructor
  case current => rfl
  case alloc => exact h.alloc
  case lt => exact h.lt
  case threadFiber => rfl
  case mainFiber => exact .inr rfl
  case mCtx => exact h.mCtx
  case running => exact Running.main

theorem start_inv (root : Bool) :
  (start root).Inv
  := by
  cases root with
  | false => exact start_false_inv
  | true => exact start_true_inv

end Thread

/-- In a run, control always returns to where the running fiber has been entered from, which
`GetThis` then reports, if and only if every step that leaves a fiber is matched. -/
theorem meets_returns_iff (root : Bool) (as : List Action) {s : Thread}
    (hlegal : (system root).Meets Action.Legal as (.start root))
    (hexec : (system root).exec as (.start root) = some s) :
  (system root).Meets Action.Returns as (.start root) ↔
    (system root).Meets Action.Matched as (.start root)
  := by
  have hinv : ∀ a s s', s.Inv → Action.Legal a s → Action.Matched a s →
      (system root).step a s = some s' → s'.Inv :=
    fun a s s' hs hlegal hmatched hstep => hs.step hlegal hmatched hstep
  have hiff : ∀ a s s', s.Inv → Action.Legal a s → (system root).step a s = some s' →
      (Action.Returns a s ↔ Action.Matched a s) :=
    fun a s s' hs hlegal hstep => hs.returns_iff hlegal hstep
  apply Transition.System.meets_iff hinv hiff (Thread.start_inv root) as hlegal hexec

/-- The root fiber enters another one, which yields and is entered again; then both end. -/
def rootRuns : List Action :=
  [.call 1, .construct false, .swapIn 2, .yieldToReady, .swapIn 2, .finish false, .finish false]

/-- A fiber for `call` yields. -/
def calledYields : List Action :=
  [.construct true, .call 2, .yieldToReady]

/-- A fiber for `call` ends behind a `reset`. -/
def resetEnds : List Action :=
  [.construct true, .reset 2, .call 2, .finish false]

theorem meets_returns_iff_rootRuns :
  (system true).Meets Action.Returns rootRuns (.start true) ↔
    (system true).Meets Action.Matched rootRuns (.start true)
  := by
  have hlegal : (system true).Meets Action.Legal rootRuns (.start true) := by
    apply (Transition.System.meets_cons rfl).mpr ⟨⟨rfl, rfl⟩, _⟩
    apply (Transition.System.meets_cons rfl).mpr ⟨trivial, _⟩
    apply (Transition.System.meets_cons rfl).mpr ⟨⟨rfl, rfl⟩, _⟩
    apply (Transition.System.meets_cons rfl).mpr ⟨Point.noConfusion, _⟩
    apply (Transition.System.meets_cons rfl).mpr ⟨⟨rfl, rfl⟩, _⟩
    apply (Transition.System.meets_cons rfl).mpr ⟨trivial, _⟩
    apply (Transition.System.meets_cons rfl).mpr ⟨trivial, _⟩
    trivial
  exact meets_returns_iff true rootRuns hlegal
    (s := ((system true).exec rootRuns (.start true)).get rfl) rfl

/-- The fiber `2` has been called, and control goes to the scheduler main fiber `1`, which has
not been entered. -/
structure Lost (as : List Action) : Prop where
  legal : (system true).Meets Action.Legal as (.start true)
  exec : ((system true).exec as (.start true)).map
    (fun s => (s.tThreadFiber, s.stack, s.getThis)) = some (0, 1, 1)
  not_returns : ¬ (system true).Meets Action.Returns as (.start true)

theorem called_lost :
  Lost calledYields ∧ Lost resetEnds
  := by
  constructor
  · constructor
    case legal =>
      apply (Transition.System.meets_cons rfl).mpr ⟨trivial, _⟩
      apply (Transition.System.meets_cons rfl).mpr ⟨⟨rfl, rfl⟩, _⟩
      apply (Transition.System.meets_cons rfl).mpr ⟨Point.noConfusion, _⟩
      trivial
    case exec => rfl
    case not_returns =>
      intro h
      obtain ⟨b, q, hb, -, hall⟩ := ((h.2 _ rfl).2 _ rfl).1 trivial
      obtain rfl : true = b := Option.some.inj hb
      cases (hall _ rfl).1
  · constructor
    case legal =>
      apply (Transition.System.meets_cons rfl).mpr ⟨trivial, _⟩
      apply (Transition.System.meets_cons rfl).mpr ⟨trivial, _⟩
      apply (Transition.System.meets_cons rfl).mpr ⟨⟨rfl, rfl⟩, _⟩
      apply (Transition.System.meets_cons rfl).mpr ⟨trivial, _⟩
      trivial
    case exec => rfl
    case not_returns =>
      intro h
      obtain ⟨b, q, hb, -, hall⟩ := (((h.2 _ rfl).2 _ rfl).2 _ rfl).1 trivial
      obtain rfl : true = b := Option.some.inj hb
      cases (hall _ rfl).1

end Switch

end WbServer
