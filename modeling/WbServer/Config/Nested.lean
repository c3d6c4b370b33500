import WbServer.Mutex

/-!
# Listeners that use their own variable

A listener is called under the read lock of its variable. A read of the same thread is
granted on top of that, but a write is not, and the thread waits for itself. This holds at
any depth: a `set_value` of a listener that finds a new value ends with a write, while the
outer one still holds the lock. `Nested.setValue_completes_iff` says what the listeners may
do so that `set_value` returns.
-/

namespace WbServer

namespace Nested

/-! ### The code -/

/-- The body of a listener: what it does with its own variable, depending on the results.
What `get_listener` finds is used only to tell whether there is a listener. -/
inductive Body (T : Type) where
  | done
  | getValue (k : T → Body T)
  | setValue (val : T) (next : Body T)
  | addListener (cb : T → T → Body T) (k : UInt64 → Body T)
  | delLietener (key : UInt64) (next : Body T)
  | getListener (key : UInt64) (k : Bool → Body T)
  | clearListener (next : Body T)

/-- A map from keys to listeners, as the list of its entries in the order of the keys. -/
abbrev Callbacks (T : Type) : Type := List (UInt64 × (T → T → Body T))

/-- `m_cbs[key] = cb`. -/
def Callbacks.set {T : Type} (key : UInt64) (cb : T → T → Body T) : Callbacks T → Callbacks T
  | [] => [(key, cb)]
  | c :: cbs =>
      if key < c.1 then (key, cb) :: c :: cbs
      else if key = c.1 then (key, cb) :: cbs
      else c :: set key cb cbs

/-- `ConfigVar`, with its lock and the counter `s_fun_id`. The variables of one type share the
counter, but only this one is used here. -/
structure Var (T : Type) where
  mMutex : RWMutex
  mVal : T
  mCbs : Callbacks T
  sFunId : UInt64

/-- Why a call has not returned: its thread waits for a lock that it holds itself, or it
needs more nested calls. -/
inductive Stop where
  | waits
  | running
  deriving DecidableEq

variable {T : Type}

namespace Var

/-- The constructor of a `ReadLock`. -/
def read (s : Var T) (t : ℕ) : Except Stop (Var T) :=
  match s.mMutex.readLock t with
  | some m => .ok { s with mMutex := m }
  | none => .error .waits

/-- The constructor of a `WriteLock`. -/
def write (s : Var T) (t : ℕ) : Except Stop (Var T) :=
  match s.mMutex.writeLock t with
  | some m => .ok { s with mMutex := m }
  | none => .error .waits

/-- The destructor of the lock. -/
def unlock (s : Var T) (t : ℕ) : Var T :=
  { s with mMutex := s.mMutex.unlock t }

/-- `get_value`. -/
def getValue (s : Var T) (t : ℕ) : Except Stop (T × Var T) := do
  let s ← s.read t
  .ok (s.mVal, s.unlock t)

/-- `add_listener`. -/
def addListener (s : Var T) (t : ℕ) (cb : T → T → Body T) : Except Stop (UInt64 × Var T) := do
  let s ← s.write t
  let id := s.sFunId + 1
  .ok (id, { s with sFunId := id, mCbs := .set id cb s.mCbs }.unlock t)

/-- `del_lietener`. -/
def delLietener (s : Var T) (t : ℕ) (key : UInt64) : Except Stop (Var T) := do
  let s ← s.write t
  .ok ({ s with mCbs := s.mCbs.filter (·.1 ≠ key) }.unlock t)

/-- `get_listener`. -/
def getListener (s : Var T) (t : ℕ) (key : UInt64) :
    Except Stop (Option (T → T → Body T) × Var T) := do
  let s ← s.read t
  .ok ((s.mCbs.find? (·.1 = key)).map Prod.snd, s.unlock t)

/-- `clear_listener`. -/
def clearListener (s : Var T) (t : ℕ) : Except Stop (Var T) := do
  let s ← s.write t
  .ok ({ s with mCbs := [] }.unlock t)

end Var

/-- The call of a listener with this body; `call` is the nested `set_value`. -/
def runBody (call : T → Var T → Except Stop (Var T)) (t : ℕ) :
    Body T → Var T → Except Stop (Var T)
  | .done, s => .ok s
  | .getValue k, s => do
      let r ← s.getValue t
      runBody call t (k r.1) r.2
  | .setValue val next, s => do
      let s ← call val s
      runBody call t next s
  | .addListener cb k, s => do
      let r ← s.addListener t cb
      runBody call t (k r.1) r.2
  | .delLietener key next, s => do
      let s ← s.delLietener t key
      runBody call t next s
  | .getListener key k, s => do
      let r ← s.getListener t key
      runBody call t (k r.1.isSome) r.2
  | .clearListener next, s => do
      let s ← s.clearListener t
      runBody call t next s

/-- The loop over the listeners. -/
def notify (call : T → Var T → Except Stop (Var T)) (t : ℕ) (val : T) :
    Callbacks T → Var T → Except Stop (Var T)
  | [], s => .ok s
  | c :: cbs, s => do
      let s ← runBody call t (c.2 s.mVal val) s
      notify call t val cbs s

/-- `set_value` in the thread `t`, with at most `depth` nested calls. -/
def setValue (eq : T → T → Bool) (t : ℕ) : ℕ → T → Var T → Except Stop (Var T)
  | 0, _, _ => .error .running
  | depth + 1, val, s => do
      let s ← s.read t
      if eq val s.mVal then .ok (s.unlock t)
      else
        let s ← notify (setValue eq t depth) t val s.mCbs s
        let s ← (s.unlock t).write t
        .ok ({ s with mVal := val }.unlock t)

/-! ### Locks -/

/-- Some thread holds the lock for reading. -/
def Held (s : Var T) : Prop :=
  s.mMutex.writer = none ∧ s.mMutex.readers ≠ []

/-- A read is granted unless there is a writer, and leaves no trace. -/
theorem read_ok {s : Var T} (h : s.mMutex.writer = none) (t : ℕ) :
  ∃ r, s.read t = .ok r ∧ r.unlock t = s ∧ Held r ∧ r.mVal = s.mVal ∧ r.mCbs = s.mCbs
  := by
  obtain ⟨⟨readers, writer⟩, mVal, mCbs, sFunId⟩ := s
  obtain rfl : writer = none := h
  use ⟨⟨t :: readers, none⟩, mVal, mCbs, sFunId⟩
  simp [Var.read, Var.unlock, RWMutex.readLock, RWMutex.unlock, Held]

/-- A write has to wait for the readers. -/
theorem write_waits {s : Var T} (h : Held s) (t : ℕ) :
  s.write t = .error .waits
  := by
  simp [Var.write, RWMutex.writeLock, h.2]

theorem write_free {s : Var T} (h : s.mMutex = .free) (t : ℕ) :
  ∃ r, s.write t = .ok r ∧ ∀ val, { r with mVal := val }.unlock t = { s with mVal := val }
  := by
  obtain ⟨m, hm, hunlock⟩ := RWMutex.writeLock_free t
  use { s with mMutex := m }
  simp [Var.write, Var.unlock, h, hm, hunlock]

theorem getValue_ok {s : Var T} (h : s.mMutex.writer = none) (t : ℕ) :
  s.getValue t = .ok (s.mVal, s)
  := by
  obtain ⟨r, hr, hunlock, -, hval, -⟩ := read_ok h t
  rw [Var.getValue, hr, ← hval, ← hunlock]
  rfl

theorem getListener_ok {s : Var T} (h : s.mMutex.writer = none) (t : ℕ) (key : UInt64) :
  s.getListener t key = .ok ((s.mCbs.find? (·.1 = key)).map Prod.snd, s)
  := by
  obtain ⟨r, hr, hunlock, -, -, hcbs⟩ := read_ok h t
  rw [Var.getListener, hr, ← hcbs, ← hunlock]
  rfl

/-! ### Harmless listeners -/

/-- Under the lock the body reads only, and sets no value but equal ones. -/
def Harmless (eq : T → T → Bool) (s : Var T) : Body T → Prop
  | .done => True
  | .getValue k => Harmless eq s (k s.mVal)
  | .setValue val next => eq val s.mVal = true ∧ Harmless eq s next
  | .addListener _ _ => False
  | .delLietener _ _ => False
  | .getListener key k => Harmless eq s (k ((s.mCbs.find? (·.1 = key)).map Prod.snd).isSome)
  | .clearListener _ => False

variable {eq : T → T → Bool} {call : T → Var T → Except Stop (Var T)} {t : ℕ}

theorem harmless_congr {r s : Var T} (hval : r.mVal = s.mVal) (hcbs : r.mCbs = s.mCbs)
    (b : Body T) :
  Harmless eq r b ↔ Harmless eq s b
  := by
  induction b with
  | done => exact Iff.rfl
  | getValue k ih =>
      rw [Harmless, Harmless, hval]
      apply ih
  | setValue val next ih => rw [Harmless, Harmless, hval, ih]
  | addListener cb k => exact Iff.rfl
  | delLietener key next => exact Iff.rfl
  | getListener key k ih =>
      rw [Harmless, Harmless, hcbs]
      apply ih
  | clearListener next => exact Iff.rfl

/-- The nested `set_value` returns exactly if the value is equal, and then changes
nothing. -/
def Quiet (eq : T → T → Bool) (call : T → Var T → Except Stop (Var T)) : Prop :=
  ∀ val s s', Held s → call val s = .ok s' → eq val s.mVal = true ∧ s' = s

/-- A body that returns has been harmless. -/
theorem Quiet.runBody (hcall : Quiet eq call) {b : Body T} {s s' : Var T} (hs : Held s)
    (h : runBody call t b s = .ok s') :
  Harmless eq s b ∧ s' = s
  := by
  induction b with
  | done =>
      obtain rfl := Except.ok.inj h
      exact ⟨trivial, rfl⟩
  | getValue k ih =>
      rw [Nested.runBody, getValue_ok hs.1] at h
      apply ih s.mVal h
  | setValue val next ih =>
      cases hc : call val s with
      | error e =>
          rw [Nested.runBody, hc] at h
          cases h
      | ok s₁ =>
          obtain ⟨heq, rfl⟩ := hcall val s s₁ hs hc
          rw [Nested.runBody, hc] at h
          obtain ⟨hnext, hs'⟩ := ih h
          exact ⟨⟨heq, hnext⟩, hs'⟩
  | addListener cb k =>
      rw [Nested.runBody, Var.addListener, write_waits hs] at h
      cases h
  | delLietener key next =>
      rw [Nested.runBody, Var.delLietener, write_waits hs] at h
      cases h
  | getListener key k ih =>
      rw [Nested.runBody, getListener_ok hs.1] at h
      apply ih _ h
  | clearListener next =>
      rw [Nested.runBody, Var.clearListener, write_waits hs] at h
      cases h

theorem Quiet.notify (hcall : Quiet eq call) {val : T} {cbs : Callbacks T}
    {s s' : Var T} (hs : Held s) (h : notify call t val cbs s = .ok s') :
  (∀ c ∈ cbs, Harmless eq s (c.2 s.mVal val)) ∧ s' = s
  := by
  induction cbs with
  | nil =>
      obtain rfl := Except.ok.inj h
      exact ⟨by simp, rfl⟩
  | cons c cbs ih =>
      cases hc : Nested.runBody call t (c.2 s.mVal val) s with
      | error e =>
          rw [Nested.notify, hc] at h
          cases h
      | ok s₁ =>
          obtain ⟨hharmless, rfl⟩ := hcall.runBody hs hc
          rw [Nested.notify, hc] at h
          obtain ⟨hcbs, hs'⟩ := ih h
          exact ⟨List.forall_mem_cons.mpr ⟨hharmless, hcbs⟩, hs'⟩

/-- Under the lock `set_value` returns only at an equal value: otherwise the listeners leave
the lock as it is, and the write has to wait. -/
theorem setValue_quiet (eq : T → T → Bool) (t depth : ℕ) :
  Quiet eq (setValue eq t depth)
  := by
  induction depth with
  | zero =>
      intro val s s' _ h
      cases h
  | succ depth ih =>
      intro val s s' hs h
      obtain ⟨r, hr, hunlock, hheld, hval, hcbs⟩ := read_ok hs.1 t
      rw [setValue, hr] at h
      cases heq : eq val s.mVal with
      | true =>
          have hs' : r.unlock t = s' := by simpa [bind, Except.bind, hval, heq] using h
          exact ⟨rfl, hs'.symm.trans hunlock⟩
      | false =>
          cases hn : Nested.notify (setValue eq t depth) t val r.mCbs r with
          | error e => simp [bind, Except.bind, hval, heq, hn] at h
          | ok r₁ =>
              obtain ⟨-, rfl⟩ := ih.notify hheld hn
              simp [bind, Except.bind, hval, heq, hn, hunlock, write_waits hs] at h

/-- A harmless body returns. -/
theorem Harmless.runBody {b : Body T} {s : Var T} (h : Harmless eq s b)
    (hs : s.mMutex.writer = none) (hcall : ∀ val, eq val s.mVal = true → call val s = .ok s) :
  runBody call t b s = .ok s
  := by
  induction b with
  | done => rfl
  | getValue k ih =>
      rw [Nested.runBody, getValue_ok hs]
      apply ih s.mVal h
  | setValue val next ih =>
      rw [Nested.runBody, hcall val h.1]
      apply ih h.2
  | addListener cb k => exact h.elim
  | delLietener key next => exact h.elim
  | getListener key k ih =>
      rw [Nested.runBody, getListener_ok hs]
      apply ih _ h
  | clearListener next => exact h.elim

theorem notify_harmless {val : T} {cbs : Callbacks T} {s : Var T}
    (h : ∀ c ∈ cbs, Harmless eq s (c.2 s.mVal val)) (hs : s.mMutex.writer = none)
    (hcall : ∀ val, eq val s.mVal = true → call val s = .ok s) :
  notify call t val cbs s = .ok s
  := by
  induction cbs with
  | nil => rfl
  | cons c cbs ih =>
      obtain ⟨hc, hcbs⟩ := List.forall_mem_cons.mp h
      rw [notify, hc.runBody hs hcall]
      apply ih hcbs

/-- An equal value is found at once. -/
theorem setValue_equal {val : T} {s : Var T} (hs : s.mMutex.writer = none)
    (heq : eq val s.mVal = true) (depth : ℕ) :
  setValue eq t (depth + 1) val s = .ok s
  := by
  obtain ⟨r, hr, hunlock, -, hval, -⟩ := read_ok hs t
  simp [setValue, hr, bind, Except.bind, hval, heq, hunlock]

/-! ### More nested calls -/

/-- What does not need more nested calls stays the same with them. -/
def Extends (call call' : T → Var T → Except Stop (Var T)) : Prop :=
  ∀ val s, call val s ≠ .error .running → call' val s = call val s

/-- A part of a run that does not need more nested calls does not do so either. -/
theorem ne_running_of_bind {α β : Type _} {x : Except Stop α} {f : α → Except Stop β}
    (h : x >>= f ≠ .error .running) :
  x ≠ .error .running
  := by
  rintro rfl
  apply h rfl

theorem bind_extends {α β : Type _} {x x' : Except Stop α} {f f' : α → Except Stop β}
    (hx : x ≠ .error .running → x' = x) (hf : ∀ a, f a ≠ .error .running → f' a = f a)
    (h : x >>= f ≠ .error .running) :
  x' >>= f' = x >>= f
  := by
  rw [hx (ne_running_of_bind h)]
  cases x with
  | error e => rfl
  | ok a => apply hf a h

theorem Extends.runBody {call' : T → Var T → Except Stop (Var T)} (h : Extends call call')
    {b : Body T} {s : Var T} (hb : runBody call t b s ≠ .error .running) :
  runBody call' t b s = runBody call t b s
  := by
  induction b generalizing s with
  | done => rfl
  | getValue k ih =>
      simp only [Nested.runBody] at hb ⊢
      apply bind_extends (fun _ => rfl) (fun r => ih r.1) hb
  | setValue val next ih =>
      simp only [Nested.runBody] at hb ⊢
      apply bind_extends (h val s) (fun _ => ih) hb
  | addListener cb k _ ih =>
      simp only [Nested.runBody] at hb ⊢
      apply bind_extends (fun _ => rfl) (fun r => ih r.1) hb
  | delLietener key next ih =>
      simp only [Nested.runBody] at hb ⊢
      apply bind_extends (fun _ => rfl) (fun _ => ih) hb
  | getListener key k ih =>
      simp only [Nested.runBody] at hb ⊢
      apply bind_extends (fun _ => rfl) (fun r => ih r.1.isSome) hb
  | clearListener next ih =>
      simp only [Nested.runBody] at hb ⊢
      apply bind_extends (fun _ => rfl) (fun _ => ih) hb

theorem Extends.notify {call' : T → Var T → Except Stop (Var T)} (h : Extends call call')
    {val : T} {cbs : Callbacks T} {s : Var T}
    (hn : notify call t val cbs s ≠ .error .running) :
  notify call' t val cbs s = notify call t val cbs s
  := by
  induction cbs generalizing s with
  | nil => rfl
  | cons c cbs ih =>
      simp only [Nested.notify] at hn ⊢
      apply bind_extends h.runBody (fun _ => ih) hn

theorem setValue_extends (eq : T → T → Bool) (t depth : ℕ) :
  Extends (setValue eq t depth) (setValue eq t (depth + 1))
  := by
  induction depth with
  | zero =>
      intro val s h
      exact absurd rfl h
  | succ depth ih =>
      intro val s h
      rw [setValue] at h ⊢
      rw [setValue]
      cases hr : s.read t with
      | error e => rfl
      | ok r =>
          rw [hr] at h
          by_cases heq : eq val r.mVal = true
          · simp [bind, Except.bind, heq]
          · simp only [bind, Except.bind, heq] at h ⊢
            rw [ih.notify (ne_running_of_bind h)]

/-- A run that has ended stays the same with more nested calls. -/
theorem setValue_mono {depth : ℕ} {val : T} {s : Var T} {r : Except Stop (Var T)}
    (h : setValue eq t depth val s = r) (hr : r ≠ .error .running) (n : ℕ) :
  setValue eq t (depth + n) val s = r
  := by
  induction n with
  | zero => apply h
  | succ n ih =>
      rw [← Nat.add_assoc, setValue_extends eq t _ val s (by rw [ih]; exact hr), ih]

/-! ### Completion -/

/-- The call returns, and with no number of nested calls does it wait for a lock. -/
def Completes (eq : T → T → Bool) (t : ℕ) (val : T) (s : Var T) : Prop :=
  (∃ depth s', setValue eq t depth val s = .ok s') ∧
    ∀ depth, setValue eq t depth val s ≠ .error .waits

theorem completes_of_ok {depth : ℕ} {val : T} {s s' : Var T}
    (h : setValue eq t depth val s = .ok s') :
  Completes eq t val s
  := by
  use ⟨depth, s', h⟩
  intro depth' hwaits
  have hleft := setValue_mono h (by simp) depth'
  have hright := setValue_mono hwaits (by simp) depth
  rw [Nat.add_comm, hright] at hleft
  cases hleft

/-- With a free lock, `set_value` completes if and only if the value is equal or all
listeners are harmless. -/
theorem setValue_completes_iff {s : Var T} (hfree : s.mMutex = .free) (eq : T → T → Bool)
    (t : ℕ) (val : T) :
  Completes eq t val s ↔
    eq val s.mVal = true ∨ ∀ c ∈ s.mCbs, Harmless eq s (c.2 s.mVal val)
  := by
  have hwriter : s.mMutex.writer = none := by
    rw [hfree]
    rfl
  obtain ⟨r, hr, hunlock, hheld, hval, hcbs⟩ := read_ok hwriter t
  have hsame : ∀ b, Harmless eq r b ↔ Harmless eq s b := fun b => harmless_congr hval hcbs b
  constructor
  · rintro ⟨⟨depth, s', h⟩, -⟩
    cases depth with
    | zero => cases h
    | succ depth =>
        rw [setValue, hr] at h
        cases heq : eq val s.mVal with
        | true => exact .inl rfl
        | false =>
            cases hn : Nested.notify (setValue eq t depth) t val r.mCbs r with
            | error e => simp [bind, Except.bind, hval, heq, hn] at h
            | ok r₁ =>
                obtain ⟨hharmless, -⟩ := (setValue_quiet eq t depth).notify hheld hn
                right
                simpa [hsame, hcbs, hval] using hharmless
  · rintro (heq | hharmless)
    · apply completes_of_ok (setValue_equal hwriter heq 0)
    · by_cases heq : eq val s.mVal = true
      · apply completes_of_ok (setValue_equal hwriter heq 0)
      · obtain ⟨r₁, hr₁, hset⟩ := write_free hfree t
        have hharmless' : ∀ c ∈ r.mCbs, Harmless eq r (c.2 r.mVal val) := by
          simpa [hsame, hcbs, hval] using hharmless
        have hn := notify_harmless (t := t) hharmless' hheld.1
          (fun val h => setValue_equal (t := t) hheld.1 h 0)
        have hok : setValue eq t 2 val s = .ok { s with mVal := val } := by
          rw [setValue, hr]
          simp [bind, Except.bind, hval, heq, hn, hunlock, hr₁, hset]
        apply completes_of_ok hok

/-- A variable with one listener. -/
def single (mVal : ℕ) (cb : ℕ → ℕ → Body ℕ) : Var ℕ :=
  { mMutex := .free, mVal := mVal, mCbs := [(1, cb)], sFunId := 1 }

theorem setValue_completes_reading :
  Completes (· = ·) 0 11 (single 5 fun _ _ => .getValue fun v => .setValue v .done)
  := by
  apply (setValue_completes_iff rfl _ 0 11).mpr
  right
  simp [single, Harmless]

/-- A listener that limits the value to 10 makes the thread wait for itself, and so does one
that deletes itself. -/
theorem setValue_waits :
  (setValue (· = ·) 0 3 11 (single 5 fun _ new => if 10 < new then .setValue 10 .done else .done))
      = .error .waits ∧
    setValue (· = ·) 0 1 11 (single 5 fun _ _ => .delLietener 1 .done) = .error .waits
  := ⟨rfl, rfl⟩

end Nested

end WbServer
