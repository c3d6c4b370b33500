import WbServer.Log.Operation

/-!
# The stream of a file appender

`FileLogAppender::reopen` closes the stream only if it is in a good state. A stream that has
failed while it was open stays open, and cannot be opened again. `FileLogAppender.recovers_iff`
says that `reopen` works in every state of a run if and only if no write to the open file
fails.
-/

namespace WbServer

/-- `std::ofstream`: whether a file is open, and whether the state has no error bits. -/
structure OfStream where
  isOpen : Bool
  good : Bool
  deriving DecidableEq

namespace OfStream

/-- A stream that has been constructed. -/
def new : OfStream where
  isOpen := false
  good := true

/-- `open`; `opens` tells whether the file can be opened. -/
def openFile (s : OfStream) (opens : Bool) : OfStream :=
  if s.isOpen then { s with good := false } else { isOpen := opens, good := opens }

/-- `close`; `closes` tells whether closing the file succeeds. -/
def close (s : OfStream) (closes : Bool) : OfStream :=
  if s.isOpen then { isOpen := false, good := s.good && closes } else { s with good := false }

/-- `<<`, which writes only in a good state; `writes` tells whether the write succeeds. -/
def write (s : OfStream) (writes : Bool) : OfStream :=
  if s.good then { s with good := s.isOpen && writes } else s

end OfStream

/-- The level, the stream and the time of the last `log` of a `FileLogAppender`. -/
structure FileLogAppender where
  mLevel : LogLevel
  mFileStream : OfStream
  mLastTime : ℕ
  deriving DecidableEq

namespace FileLogAppender

/-! ### The code -/

/-- `reopen`, and what it returns. -/
def reopen (a : FileLogAppender) (opens closes : Bool) : FileLogAppender × Bool :=
  let s := if a.mFileStream.good then a.mFileStream.close closes else a.mFileStream
  let s := s.openFile opens
  ({ a with mFileStream := s }, s.isOpen)

/-- The members in front of the body of the constructor. -/
def members : FileLogAppender where
  mLevel := .debug
  mFileStream := .new
  mLastTime := 0

/-- The constructor. -/
def new (opens closes : Bool) : FileLogAppender :=
  (members.reopen opens closes).1

/-- `log` at the time `now`; `writes` tells which writes of the items succeed. -/
def log (a : FileLogAppender) (level : LogLevel) (now : ℕ) (opens closes : Bool)
    (writes : List Bool) : FileLogAppender :=
  if a.mLevel.toNat ≤ level.toNat then
    let a := if now ≠ a.mLastTime then { (a.reopen opens closes).1 with mLastTime := now } else a
    { a with mFileStream := writes.foldl OfStream.write a.mFileStream }
  else a

/-- A call of `log` or `reopen`, with what the environment does. -/
inductive Op where
  | log (level : LogLevel) (now : ℕ) (opens closes : Bool) (writes : List Bool)
  | reopen (opens closes : Bool)

/-- What a call does. -/
def call (a : FileLogAppender) : Op → FileLogAppender
  | .log level now opens closes writes => a.log level now opens closes writes
  | .reopen opens closes => (a.reopen opens closes).1

/-- An appender and its environment. -/
def system : Transition.System FileLogAppender Op where
  init a := ∃ opens closes, a = new opens closes
  step op a := some (a.call op)

/-! ### Recovery -/

/-- If the file can be opened, `reopen` returns `true` with an open stream in a good state. -/
def Recovers (a : FileLogAppender) : Prop :=
  ∀ closes, a.reopen true closes = ({ a with mFileStream := ⟨true, true⟩ }, true)

/-- The call writes to the open file only with success. -/
def WritesSucceed : Op → FileLogAppender → Prop
  | .log level now opens _ writes, a =>
      a.mLevel.toNat ≤ level.toNat →
        (if now ≠ a.mLastTime then opens else a.mFileStream.isOpen) = true → ∀ w ∈ writes, w = true
  | .reopen _ _, _ => True

/-- The stream is not good without an open file. -/
def Wf (a : FileLogAppender) : Prop :=
  a.mFileStream.good = true → a.mFileStream.isOpen = true

/-- The stream has to be good if it is open. -/
theorem recovers_iff_good (a : FileLogAppender) :
  Recovers a ↔ (a.mFileStream.isOpen = true → a.mFileStream.good = true)
  := by
  obtain ⟨level, ⟨isOpen, good⟩, lastTime⟩ := a
  cases isOpen <;> cases good <;>
    simp [Recovers, reopen, OfStream.openFile, OfStream.close]

/-- An appender that recovers opens the stream as the environment lets it. -/
theorem Recovers.reopen {a : FileLogAppender} (h : Recovers a) (opens closes : Bool) :
  (a.reopen opens closes).1 = { a with mFileStream := ⟨opens, opens⟩ }
  := by
  have hgood := (recovers_iff_good a).mp h
  obtain ⟨level, ⟨isOpen, good⟩, lastTime⟩ := a
  cases isOpen with
  | false => cases good <;> simp [FileLogAppender.reopen, OfStream.openFile, OfStream.close]
  | true =>
      obtain rfl : good = true := hgood rfl
      simp [FileLogAppender.reopen, OfStream.openFile, OfStream.close]

/-- `open` leaves the state good only with an open file. -/
theorem openFile_wf (s : OfStream) (opens : Bool) :
  (s.openFile opens).good = true → (s.openFile opens).isOpen = true
  := by
  unfold OfStream.openFile
  split <;> simp

theorem reopen_wf (a : FileLogAppender) (opens closes : Bool) :
  Wf (a.reopen opens closes).1
  := openFile_wf _ opens

/-- Writes leave the file open, and the state is good if all of them succeed. -/
theorem foldl_write {s : OfStream} (hs : s.good = true → s.isOpen = true) (writes : List Bool) :
  writes.foldl OfStream.write s = { s with good := s.good && writes.all id }
  := by
  induction writes generalizing s with
  | nil => simp
  | cons w writes ih =>
      obtain ⟨isOpen, good⟩ := s
      cases good with
      | false => simpa [OfStream.write] using ih hs
      | true =>
          obtain rfl : isOpen = true := hs rfl
          simpa [OfStream.write] using @ih ⟨true, w⟩ fun _ => rfl

theorem Wf.log {a : FileLogAppender} (h : Wf a) (level : LogLevel) (now : ℕ)
    (opens closes : Bool) (writes : List Bool) :
  Wf (a.log level now opens closes writes)
  := by
  have hwrite : ∀ b : FileLogAppender, Wf b →
      Wf { b with mFileStream := writes.foldl OfStream.write b.mFileStream } := by
    intro b hb
    simp only [Wf, foldl_write hb]
    intro hgood
    apply hb (Bool.and_elim_left hgood)
  unfold FileLogAppender.log
  split
  · split
    · exact hwrite _ (reopen_wf a opens closes)
    · apply hwrite a h
  · apply h

/-- A call leaves the state good only with an open file. -/
theorem Wf.call {a : FileLogAppender} (h : Wf a) (op : Op) :
  Wf (a.call op)
  := by
  cases op with
  | log level now opens closes writes => apply h.log
  | reopen opens closes => apply reopen_wf

/-- Behind the writes of a stream that was as good as it was open. -/
theorem recovers_write_iff {a : FileLogAppender} {b : Bool} (h : a.mFileStream = ⟨b, b⟩)
    (writes : List Bool) :
  Recovers { a with mFileStream := writes.foldl OfStream.write a.mFileStream } ↔
    (b = true → ∀ w ∈ writes, w = true)
  := by
  rw [recovers_iff_good, h, foldl_write id]
  cases b <;> simp

/-- A call keeps the appender recovering if and only if its writes to the open file
succeed. -/
theorem Recovers.call_iff {a : FileLogAppender} (h : Recovers a) (hwf : Wf a) (op : Op) :
  Recovers (a.call op) ↔ WritesSucceed op a
  := by
  cases op with
  | log level now opens closes writes =>
      simp only [FileLogAppender.call, FileLogAppender.log, WritesSucceed]
      split
      case isTrue hlevel =>
        simp only [hlevel, forall_const]
        split
        case isTrue =>
          rw [h.reopen]
          exact recovers_write_iff (b := opens) (a := ⟨a.mLevel, ⟨opens, opens⟩, now⟩) rfl writes
        case isFalse =>
          have hsame : a.mFileStream = ⟨a.mFileStream.isOpen, a.mFileStream.isOpen⟩ := by
            have hgood : a.mFileStream.good = a.mFileStream.isOpen :=
              Bool.eq_iff_iff.mpr ⟨hwf, (recovers_iff_good a).mp h⟩
            rw [OfStream.mk.injEq]
            exact ⟨rfl, hgood⟩
          apply recovers_write_iff hsame
      case isFalse hlevel => simp [hlevel, h]
  | reopen opens closes =>
      simp [FileLogAppender.call, WritesSucceed, h.reopen, recovers_iff_good]

theorem exec_eq (ops : List Op) (a : FileLogAppender) :
  system.exec ops a = some (ops.foldl call a)
  := by
  induction ops generalizing a with
  | nil => rfl
  | cons op ops ih => apply ih (a.call op)

/-- The constructor calls `reopen` on a stream without a file. -/
theorem recovers_members :
  Recovers members
  := by
  rw [recovers_iff_good]
  intro hopen
  cases hopen

/-- From the constructor on, `reopen` works in every state of a run if and only if the writes
to the open file succeed. -/
theorem recovers_iff (opens closes : Bool) (ops : List Op) :
  Recovers members ∧ system.Along Recovers ops (new opens closes) ↔
    system.Meets WritesSucceed ops (new opens closes)
  := by
  rw [and_iff_right recovers_members]
  have hinv : ∀ op a a', Wf a → system.step op a = some a' → Wf a' := by
    rintro op a _ ha ⟨⟩
    apply ha.call op
  have hstep : ∀ op a a', Wf a → Recovers a → system.step op a = some a' →
      (Recovers a' ↔ WritesSucceed op a) := by
    rintro op a _ ha hrecovers ⟨⟩
    apply hrecovers.call_iff ha op
  have hnew : Recovers (new opens closes) := by
    rw [new, recovers_members.reopen, recovers_iff_good]
    exact id
  apply Transition.System.along_iff_meets_of_any hinv hstep (reopen_wf members opens closes) hnew
    ops (exec_eq ops _)

/-- A stream that has failed stays as it is. -/
theorem call_stuck {a : FileLogAppender} (h : a.mFileStream = ⟨true, false⟩) (op : Op) :
  (a.call op).mFileStream = ⟨true, false⟩
  := by
  have hreopen : ∀ opens closes, (a.reopen opens closes).1.mFileStream = ⟨true, false⟩ := by
    intro opens closes
    simp [reopen, h, OfStream.openFile]
  have hwrite : ∀ writes : List Bool,
      writes.foldl OfStream.write ⟨true, false⟩ = ⟨true, false⟩ := by
    intro writes
    rw [foldl_write (by simp)]
    simp
  cases op with
  | log level now opens closes writes =>
      simp only [call, log]
      split
      · split
        · rw [hreopen, hwrite]
        · rw [h, hwrite]
      · apply h
  | reopen opens closes => apply hreopen

/-- One write fails. The file can be opened ever after, but is not. -/
theorem failed_write_sticks :
  let a := (new true true).log .info 1 true true [false]
  a.mFileStream = ⟨true, false⟩ ∧ (a.reopen true true).1.mFileStream = ⟨true, false⟩ ∧
    ¬ system.Along Recovers [.log .info 1 true true [false]] (new true true)
  := by
  refine ⟨rfl, rfl, fun h => ?_⟩
  have hrecovers : Recovers ((new true true).log .info 1 true true [false]) := h.2 _ rfl
  exact absurd ((recovers_iff_good _).mp hrecovers rfl) (by decide)

end FileLogAppender

end WbServer
