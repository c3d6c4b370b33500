import Mathlib.Tactic

/-!
# Fibers

A fiber is a stack with a state and a callback. Its context `m_ctx` is abstracted to the
place where it resumes: the entry of `MainFunc`, a point inside the callback behind a
`swap_out`, or the end of `MainFunc`, behind the last `swap_out`, where only the
never-reach assertion is left. A `Fiber::ptr` is the index of the fiber in the heap; an
index that has not been handed out yet is the null pointer.

The operations are the parts of `Fiber` that act on the fiber alone. An operation that
starts with a failing `YGJ_ASSERT` has the value `none`.
-/

namespace WbServer

/-- What a fiber executes: the scheduler's `idle`, or a task from the point `k` on. The
type `κ` of points is arbitrary: a point is a callback together with the place in it. -/
inductive Code (κ : Type) where
  | idle
  | task (k : κ)
  deriving DecidableEq

/-- A `Fiber::ptr`. -/
abbrev FiberId : Type := ℕ

namespace Fiber

/-- The states of a fiber. -/
inductive State where
  | init
  | hold
  | exec
  | term
  | ready
  | except
  deriving DecidableEq

/-- The states `TERM` and `EXCEPT` a fiber ends in. -/
def State.Finished (s : State) : Prop := s = .term ∨ s = .except

instance (s : State) : Decidable s.Finished :=
  inferInstanceAs (Decidable (_ ∨ _))

/-- The states in which `reset` may be called. -/
def State.Resettable (s : State) : Prop := s = .term ∨ s = .except ∨ s = .init

instance (s : State) : Decidable s.Resettable :=
  inferInstanceAs (Decidable (_ ∨ _ ∨ _))

@[simp]
theorem State.finished_term :
  State.term.Finished
  := .inl rfl

@[simp]
theorem State.finished_except :
  State.except.Finished
  := .inr rfl

@[simp]
theorem State.not_finished_init :
  ¬ State.init.Finished
  := by decide

@[simp]
theorem State.not_finished_hold :
  ¬ State.hold.Finished
  := by decide

@[simp]
theorem State.not_finished_exec :
  ¬ State.exec.Finished
  := by decide

@[simp]
theorem State.not_finished_ready :
  ¬ State.ready.Finished
  := by decide

/-- A finished state allows a `reset`. -/
theorem State.Finished.resettable {s : State} (h : s.Finished) :
  s.Resettable
  := by
  obtain h | h := h
  · apply Or.inl h
  · apply Or.inr (Or.inl h)

/-- Where the context of a fiber resumes. -/
inductive Context (κ : Type) where
  /-- At the entry of `MainFunc`, where `makecontext` leaves it. -/
  | entry
  /-- Inside the callback, behind a `swap_out`, with `c` left to execute. -/
  | suspended (c : Code κ)
  /-- Behind the `swap_out` that ends `MainFunc`. -/
  | finished
  deriving DecidableEq

end Fiber

/-- A fiber: `m_state`, `m_cb` (`none` for an empty function) and `m_ctx`. -/
structure Fiber (κ : Type) where
  mState : Fiber.State
  mCb : Option (Code κ)
  mCtx : Fiber.Context κ
  deriving DecidableEq

namespace Fiber

variable {κ : Type}

/-- The constructor of a fiber with a stack. -/
def new (cb : Option (Code κ)) : Fiber κ where
  mState := .init
  mCb := cb
  mCtx := .entry

/-- `Fiber::reset`. -/
def reset (f : Fiber κ) (cb : Option (Code κ)) : Option (Fiber κ) :=
  if f.mState.Resettable then some { mState := .init, mCb := cb, mCtx := .entry } else none

/-- `Fiber::swap_in` up to the switch of contexts. -/
def swapIn (f : Fiber κ) : Option (Fiber κ) :=
  if f.mState = .exec then none else some { f with mState := .exec }

/-- `Fiber::swap_out`: the context is saved where the fiber left off. -/
def swapOut (f : Fiber κ) (ctx : Context κ) : Fiber κ :=
  { f with mCtx := ctx }

/-- `Fiber::YieldToReady`, with `rest` left to execute. -/
def yieldToReady (f : Fiber κ) (rest : Code κ) : Fiber κ :=
  swapOut { f with mState := .ready } (.suspended rest)

/-- `Fiber::YeidToHold`, with `rest` left to execute. -/
def yeidToHold (f : Fiber κ) (rest : Code κ) : Fiber κ :=
  swapOut { f with mState := .hold } (.suspended rest)

/-- The end of `Fiber::MainFunc` when the callback returns. -/
def mainFuncReturn (f : Fiber κ) : Fiber κ :=
  swapOut { f with mCb := none, mState := .term } .finished

/-- The end of `Fiber::MainFunc` when the callback throws. -/
def mainFuncThrow (f : Fiber κ) : Fiber κ :=
  swapOut { f with mState := .except } .finished

/-- `Fiber::call` up to the switch of contexts. -/
def call (f : Fiber κ) : Fiber κ :=
  { f with mState := .exec }

/-- `Fiber::back`: the context is saved where the fiber left off. -/
def back (f : Fiber κ) (ctx : Context κ) : Fiber κ :=
  { f with mCtx := ctx }

/-- The end of `Fiber::CallMainFunc` when the callback returns. -/
def callMainFuncReturn (f : Fiber κ) : Fiber κ :=
  back { f with mCb := none, mState := .term } .finished

/-- `run()` records a fiber that neither yielded ready nor ended as `HOLD`. -/
def setHold (f : Fiber κ) : Fiber κ :=
  { f with mState := .hold }

theorem reset_eq_some {f f' : Fiber κ} {cb : Option (Code κ)} :
  f.reset cb = some f' ↔ f.mState.Resettable ∧ f' = new cb
  := by
  unfold reset new
  split
  · simp_all [eq_comm]
  · simp_all

theorem swapIn_eq_some {f f' : Fiber κ} :
  f.swapIn = some f' ↔ f.mState ≠ .exec ∧ f' = { f with mState := .exec }
  := by
  unfold swapIn
  split
  · simp_all
  · simp_all [eq_comm]

end Fiber

end WbServer
