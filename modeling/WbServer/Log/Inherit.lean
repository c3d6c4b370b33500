import WbServer.Log.Live
import WbServer.Log.Operation

/-!
# Formatters of attached appenders

An appender without a formatter of its own takes over the one of its logger when it is
attached, and follows it while it is attached. Two operations break this. `add_appender`
tests `m_formatter` where `Logger::set_formatter` tests `m_has_formatter`, so that an
appender that has been attached before keeps the formatter it had then; and
`LogAppender::set_formatter` with a null pointer takes the formatter of an attached appender
away, which `log` then dereferences.

`LoggerManager.inStep_iff` and `LoggerManager.formats_iff` say that nothing else breaks it,
for any sequence of operations.
-/

namespace WbServer

/-- An appender without a formatter takes over the one of the logger. -/
theorem LogAppender.inherit_of_none {a : LogAppender} (h : a.mFormatter = none)
    (val : LogFormatter) :
  a.inherit val = { a with mFormatter := some val }
  := by
  simp [LogAppender.inherit, h]

theorem LogAppender.follow_ne_none {a : LogAppender} (h : a.mFormatter ≠ none)
    (val : LogFormatter) :
  (a.follow val).mFormatter ≠ none
  := by
  unfold LogAppender.follow
  split
  · apply h
  · simp

/-- An appender that has been attached has a formatter. -/
theorem LogAppender.inherit_ne_none (a : LogAppender) (val : LogFormatter) :
  (a.inherit val).mFormatter ≠ none
  := by
  cases h : a.mFormatter <;> simp [LogAppender.inherit, h]

theorem LogAppender.inherit_mHasFormatter (a : LogAppender) (val : LogFormatter) :
  (a.inherit val).mHasFormatter = a.mHasFormatter
  := by
  cases h : a.mFormatter <;> simp [LogAppender.inherit, h]

/-- An appender with a formatter keeps it when it is attached. -/
theorem LogAppender.inherit_of_ne {a : LogAppender} (h : a.mFormatter ≠ none)
    (val : LogFormatter) :
  a.inherit val = a
  := by
  obtain ⟨f, hf⟩ := Option.ne_none_iff_exists'.mp h
  simp [LogAppender.inherit, hf]

/-- A loop that fails for no element. -/
theorem mapM_ne_none_iff {α β : Type} {f : α → Option β} {l : List α} :
  l.mapM f ≠ none ↔ ∀ x ∈ l, f x ≠ none
  := by
  induction l with
  | nil => simp
  | cons x l ih =>
      rw [List.mapM_cons, List.forall_mem_cons, ← ih]
      cases f x with
      | none => simp
      | some y => cases l.mapM f <;> simp

theorem LogLevel.toNat_le_fatal (level : LogLevel) :
  level.toNat ≤ LogLevel.fatal.toNat
  := by
  cases level <;> decide

namespace LoggerManager

/-! ### The effects of the operations on attached appenders -/

/-- An attached appender has been constructed. -/
theorem Wf.lt {s : LoggerManager} (h : s.Wf) {name : String} {l : Logger} {ap : AppenderId}
    (ha : s.Attached name l ap) :
  ap < s.next
  := h.constructed name l ha.logger ap ha.mem

/-- `add_appender` on a logger that exists. -/
theorem addAppender_eq {s : LoggerManager} {name : String} {l : Logger}
    (hl : s.mLoggers name = some l) (ap : AppenderId) :
  s.addAppender name ap =
    { s with heap := Function.update s.heap ap ((s.heap ap).inherit l.mFormatter) }.set name
      { l with mAppenders := l.mAppenders ++ [ap] }
  := by
  simp [LoggerManager.addAppender, hl]

/-- An appender attached behind `add_appender` was attached before, or is the new one. -/
theorem attached_addAppender {s : LoggerManager} {name : String} {l : Logger}
    (hl : s.mLoggers name = some l) {ap : AppenderId} {name' : String} {l' : Logger}
    {ap' : AppenderId} (h : (s.addAppender name ap).Attached name' l' ap') :
  (∃ l₀, s.Attached name' l₀ ap' ∧ l'.mFormatter = l₀.mFormatter) ∨
    name' = name ∧ ap' = ap ∧ l'.mFormatter = l.mFormatter
  := by
  obtain ⟨hl', hap⟩ := h
  rw [addAppender_eq hl] at hl'
  by_cases hname : name' = name
  · subst hname
    rw [set_self] at hl'
    obtain rfl := Option.some.inj hl'
    obtain hap | hap := List.mem_append.mp hap
    · exact .inl ⟨l, ⟨hl, hap⟩, rfl⟩
    · exact .inr ⟨rfl, List.mem_singleton.mp hap, rfl⟩
  · rw [set_of_ne _ hname] at hl'
    exact .inl ⟨l', ⟨hl', hap⟩, rfl⟩

/-- What is attached stays attached behind `add_appender`. -/
theorem Attached.addAppender {s : LoggerManager} {name : String} {l : Logger}
    (hl : s.mLoggers name = some l) (ap : AppenderId) :
  (s.addAppender name ap).Attached name { l with mAppenders := l.mAppenders ++ [ap] } ap
  := by
  rw [addAppender_eq hl]
  constructor
  · apply set_self
  · simp

/-- `add_appender` may change the new appender only. -/
theorem heap_addAppender {s : LoggerManager} {name : String} {l : Logger}
    (hl : s.mLoggers name = some l) (ap ap' : AppenderId) :
  (s.addAppender name ap).heap ap' =
    if ap' = ap then (s.heap ap).inherit l.mFormatter else s.heap ap'
  := by
  rw [addAppender_eq hl]
  apply Function.update_apply

/-- `Logger::set_formatter` on a logger that exists. -/
theorem setFormatter_eq {s : LoggerManager} {name : String} {l : Logger}
    (hl : s.mLoggers name = some l) (val : LogFormatter) :
  s.setFormatter name val =
    { s with heap := followAll s.heap val l.mAppenders }.set name { l with mFormatter := val }
  := by
  simp [LoggerManager.setFormatter, hl]

/-- An appender attached behind `Logger::set_formatter` was attached before, to a logger that has
the new formatter if it is the one that was set. -/
theorem attached_setFormatter {s : LoggerManager} {name : String} {l : Logger}
    (hl : s.mLoggers name = some l) {val : LogFormatter} {name' : String} {l' : Logger}
    {ap : AppenderId} (h : (s.setFormatter name val).Attached name' l' ap) :
  (name' = name ∧ ap ∈ l.mAppenders ∧ l'.mFormatter = val) ∨ name' ≠ name ∧ s.Attached name' l' ap
  := by
  obtain ⟨hl', hap⟩ := h
  rw [setFormatter_eq hl] at hl'
  by_cases hname : name' = name
  · subst hname
    rw [set_self] at hl'
    obtain rfl := Option.some.inj hl'
    exact .inl ⟨rfl, hap, rfl⟩
  · rw [set_of_ne _ hname] at hl'
    exact .inr ⟨hname, hl', hap⟩

/-- `Logger::set_formatter` reaches the appenders of the logger only. -/
theorem heap_setFormatter {s : LoggerManager} {name : String} {l : Logger}
    (hl : s.mLoggers name = some l) (val : LogFormatter) (ap : AppenderId) :
  (s.setFormatter name val).heap ap =
    if ap ∈ l.mAppenders then (s.heap ap).follow val else s.heap ap
  := by
  rw [setFormatter_eq hl]
  apply followAll_apply

/-! ### Formatters in step -/

/-- Attached appenders without a formatter of their own have that of their logger. -/
def InStep (s : LoggerManager) : Prop :=
  ∀ name l ap, s.Attached name l ap → (s.heap ap).mHasFormatter = false →
    (s.heap ap).mFormatter = some l.mFormatter

/-- An appender is attached to at most one logger at a time, and no formatter is null. -/
def Legal (op : Operation) (s : LoggerManager) : Prop :=
  (∀ name ap, op = .addAppender name ap →
    ∀ name' l', s.Attached name' l' ap → name' = name) ∧
  ∀ ap, op ≠ .setAppenderFormatter ap none

/-- An appender that is attached has a formatter of its own, or no formatter at all, or
already the one of the logger. -/
def Inherits (op : Operation) (s : LoggerManager) : Prop :=
  ∀ name ap l, op = .addAppender name ap → s.mLoggers name = some l →
    (s.heap ap).mHasFormatter = true ∨ (s.heap ap).mFormatter = none ∨
      (s.heap ap).mFormatter = some l.mFormatter

/-- What keeps the attached appenders keeps them well formed. -/
theorem Keeps.wf {s s' : LoggerManager} (h : Keeps s s') (hs : s.Wf) :
  s'.Wf
  := by
  constructor
  case constructed =>
    intro name l hl ap hap
    obtain ⟨l₀, h₀, -⟩ := h.attached name l ap ⟨hl, hap⟩
    apply Nat.lt_of_lt_of_le (hs.lt h₀) h.next
  case separate =>
    intro name name' l l' hl hl' ap hap hap'
    obtain ⟨l₀, h₀, -⟩ := h.attached name l ap ⟨hl, hap⟩
    obtain ⟨l₀', h₀', -⟩ := h.attached name' l' ap ⟨hl', hap'⟩
    apply hs.separate name name' l₀ l₀' h₀.logger h₀'.logger ap h₀.mem h₀'.mem

/-- An appender that is attached to no other logger may be attached. -/
theorem Wf.addAppender {s : LoggerManager} (h : s.Wf) {name : String} {l : Logger}
    (hl : s.mLoggers name = some l) {ap : AppenderId} (hap : ap < s.next)
    (hfree : ∀ name' l', s.Attached name' l' ap → name' = name) :
  (s.addAppender name ap).Wf
  := by
  have hnext : (s.addAppender name ap).next = s.next := by rw [addAppender_eq hl]; rfl
  have hcases : ∀ name' l' ap', (s.addAppender name ap).Attached name' l' ap' →
      (∃ l₀, s.Attached name' l₀ ap') ∨ name' = name ∧ ap' = ap := by
    intro name' l' ap' ha
    obtain ⟨l₀, h₀, -⟩ | ⟨hname, rfl, -⟩ := attached_addAppender hl ha
    · exact .inl ⟨l₀, h₀⟩
    · exact .inr ⟨hname, rfl⟩
  constructor
  case constructed =>
    intro name' l' hl' ap' hap'
    rw [hnext]
    obtain ⟨l₀, h₀⟩ | ⟨-, rfl⟩ := hcases name' l' ap' ⟨hl', hap'⟩
    · apply h.lt h₀
    · apply hap
  case separate =>
    intro n₁ n₂ l₁ l₂ h₁ h₂ ap' hap₁ hap₂
    obtain ⟨l₁', h₁'⟩ | ⟨rfl, rfl⟩ := hcases n₁ l₁ ap' ⟨h₁, hap₁⟩
    · obtain ⟨l₂', h₂'⟩ | ⟨rfl, rfl⟩ := hcases n₂ l₂ ap' ⟨h₂, hap₂⟩
      · apply h.separate n₁ n₂ l₁' l₂' h₁'.logger h₂'.logger ap' h₁'.mem h₂'.mem
      · apply hfree n₁ l₁' h₁'
    · obtain ⟨l₂', h₂'⟩ | ⟨rfl, -⟩ := hcases n₂ l₂ ap' ⟨h₂, hap₂⟩
      · apply (hfree n₂ l₂' h₂').symm
      · rfl

/-- A legal step attaches an appender to one logger at a time. -/
theorem Wf.step {op : Operation} {s s' : LoggerManager} (h : s.Wf) (hop : Legal op s)
    (hstep : system.step op s = some s') :
  s'.Wf
  := by
  obtain ⟨name, ap, l, rfl, hl, hap, rfl⟩ | ⟨ap, val, rfl, hap, rfl⟩ | ⟨-, -, hs'⟩ :=
    step_cases hstep
  · apply h.addAppender hl hap (hop.1 name ap rfl)
  · exact ⟨h.constructed, h.separate⟩
  · obtain ⟨name, val, l, hl, rfl⟩ | hkeeps := hs'
    · apply (h.setFormatter name val).wf
    · apply hkeeps.wf h

/-- `add_appender` keeps the formatters in step exactly when the appender takes over the
formatter of the logger. -/
theorem InStep.addAppender_iff {s : LoggerManager} (h : s.InStep) {name : String} {l : Logger}
    (hl : s.mLoggers name = some l) (ap : AppenderId) :
  (s.addAppender name ap).InStep ↔
    (s.heap ap).mHasFormatter = true ∨ (s.heap ap).mFormatter = none ∨
      (s.heap ap).mFormatter = some l.mFormatter
  := by
  constructor
  · intro h'
    have hnew := h' name _ ap (.addAppender hl ap)
    rw [heap_addAppender hl, if_pos rfl] at hnew
    by_cases hnone : (s.heap ap).mFormatter = none
    · exact .inr (.inl hnone)
    · rw [LogAppender.inherit_of_ne hnone] at hnew
      cases hhas : (s.heap ap).mHasFormatter with
      | true => exact .inl rfl
      | false => exact .inr (.inr (hnew hhas))
  · intro hap name' l' ap' ha hhas
    rw [heap_addAppender hl] at hhas ⊢
    obtain ⟨l₀, h₀, hf⟩ | ⟨-, rfl, hf⟩ := attached_addAppender hl ha
    · -- an appender that was attached is in step and has a formatter
      have hold := h name' l₀ ap' h₀
      rw [hf]
      by_cases hne : ap' = ap
      · subst hne
        rw [if_pos rfl] at hhas ⊢
        rw [LogAppender.inherit_mHasFormatter] at hhas
        rw [LogAppender.inherit_of_ne (by simp [hold hhas])]
        apply hold hhas
      · rw [if_neg hne] at hhas ⊢
        apply hold hhas
    · rw [if_pos rfl] at hhas ⊢
      rw [LogAppender.inherit_mHasFormatter] at hhas
      rw [hf]
      obtain hap | hap | hap := hap
      · simp [hap] at hhas
      · rw [LogAppender.inherit_of_none hap]
      · rw [LogAppender.inherit_of_ne (by simp [hap]), hap]

/-- The appenders of the logger follow, and those of other loggers are other appenders. -/
theorem InStep.setFormatter {s : LoggerManager} (h : s.InStep) (hs : s.Wf) {name : String}
    {l : Logger} (hl : s.mLoggers name = some l) (val : LogFormatter) :
  (s.setFormatter name val).InStep
  := by
  intro name' l' ap ha hhas
  rw [heap_setFormatter hl] at hhas ⊢
  obtain ⟨rfl, hap, hf⟩ | ⟨hname, ha⟩ := attached_setFormatter hl ha
  · rw [if_pos hap] at hhas ⊢
    rw [hf]
    unfold LogAppender.follow at hhas ⊢
    split
    · simp_all
    · rfl
  · have hother : ap ∉ l.mAppenders := fun hap =>
      hname (hs.separate name' name l' l ha.logger hl ap ha.mem hap)
    rw [if_neg hother] at hhas ⊢
    apply h name' l' ap ha hhas

/-- An appender with a formatter of its own is in step. -/
theorem InStep.setAppenderFormatter {s : LoggerManager} (h : s.InStep) (ap : AppenderId)
    (val : LogFormatter) :
  (s.setAppenderFormatter ap (some val)).InStep
  := by
  intro name l ap' ⟨hl, hap⟩ hhas
  by_cases hne : ap' = ap
  · -- the appender has a formatter of its own now
    simp [LoggerManager.setAppenderFormatter, modifyAppender, hne, LogAppender.setFormatter] at hhas
  · simp only [LoggerManager.setAppenderFormatter, modifyAppender,
      Function.update_of_ne hne] at hhas ⊢
    apply h name l ap' ⟨hl, hap⟩ hhas

/-- What keeps the attached appenders keeps them in step. -/
theorem Keeps.inStep {s s' : LoggerManager} (h : Keeps s s') (hwf : s.Wf) (hs : s.InStep) :
  s'.InStep
  := by
  intro name l ap ha hhas
  obtain ⟨l₀, h₀, hf⟩ := h.attached name l ap ha
  obtain ⟨hformatter, hhas'⟩ := h.formatter ap (hwf.lt h₀)
  rw [hf, hformatter]
  apply hs name l₀ ap h₀ (hhas' ▸ hhas)

/-- A step keeps the formatters in step if and only if it meets the condition. -/
theorem InStep.step_iff {op : Operation} {s s' : LoggerManager} (h : s.InStep) (hs : s.Wf)
    (hop : Legal op s) (hstep : system.step op s = some s') :
  s'.InStep ↔ Inherits op s
  := by
  obtain ⟨name, ap, l, rfl, hl, hap, rfl⟩ | ⟨ap, val, rfl, hap, rfl⟩ | ⟨hadd, -, hs'⟩ :=
    step_cases hstep
  · rw [h.addAppender_iff hl]
    constructor
    · rintro hinherits _ _ _ ⟨⟩ hl'
      obtain rfl := Option.some.inj (hl.symm.trans hl')
      apply hinherits
    · intro hinherits
      apply hinherits name ap l rfl hl
  · cases val with
    | none => apply absurd rfl (hop.2 ap)
    | some val => exact iff_of_true (h.setAppenderFormatter ap val) nofun
  · refine iff_of_true ?_ fun name ap _ heq => absurd heq (hadd name ap)
    obtain ⟨name, val, l, hl, rfl⟩ | hkeeps := hs'
    · apply h.setFormatter hs hl
    · apply hkeeps.inStep hs h

/-- At first only the appender of `root` is attached. -/
theorem new_attached {name : String} {l : Logger} {ap : AppenderId}
    (h : new.Attached name l ap) :
  name = "root" ∧ ap = 0 ∧ (new.heap ap).mFormatter = some l.mFormatter
  := by
  obtain ⟨hl, hap⟩ := h
  obtain ⟨rfl, rfl⟩ := new_mLoggers hl
  obtain rfl := List.mem_singleton.mp hap
  exact ⟨rfl, rfl, rfl⟩

/-- In a run that attaches an appender to one logger at a time and uses no null formatter,
the formatters are in step in every state if and only if every appender that is attached has
a formatter of its own, none at all, or already the one of the logger. -/
theorem inStep_iff (ops : List Operation) {s : LoggerManager} (h : system.Meets Legal ops new)
    (hexec : system.exec ops new = some s) :
  system.Along InStep ops new ↔ system.Meets Inherits ops new
  := by
  have hnew : new.InStep := fun name l ap ha _ => (new_attached ha).2.2
  have hinv : ∀ op s s', Wf s → Legal op s → system.step op s = some s' → Wf s' :=
    fun op s s' hs hop hstep => hs.step hop hstep
  apply Transition.System.along_iff_meets hinv _ new_wf hnew ops h hexec
  exact fun op s s' hs hP hop hstep => hP.step_iff hs hop hstep

/-- The logger `root` is the only one. -/
def RootOnly (s : LoggerManager) : Prop :=
  ∀ name ≠ "root", s.mLoggers name = none

/-- An operation that attaches to the logger `root` only, obtains no other logger, and uses no
null formatter. -/
def OnRoot (op : Operation) : Prop :=
  (∀ name, op = .getLogger name → name = "root") ∧
    (∀ name ap, op = .addAppender name ap → name = "root") ∧
    ∀ ap, op ≠ .setAppenderFormatter ap none

/-- A logger that exists is replaced. -/
theorem RootOnly.set {s : LoggerManager} (h : s.RootOnly) {name : String} {l : Logger}
    (hl : s.mLoggers name = some l) (l' : Logger) :
  (s.set name l').RootOnly
  := by
  intro name' hname'
  have hne : name' ≠ name := by
    rintro rfl
    rw [h name' hname'] at hl
    cases hl
  rw [set_of_ne s hne]
  apply h name' hname'

theorem RootOnly.modify {s : LoggerManager} (h : s.RootOnly) (name : String)
    (f : Logger → Logger) :
  (s.modify name f).RootOnly
  := by
  unfold LoggerManager.modify
  split
  case h_1 => apply h
  case h_2 l hl => apply h.set hl

theorem RootOnly.setFormatter {s : LoggerManager} (h : s.RootOnly) (name : String)
    (val : LogFormatter) :
  (s.setFormatter name val).RootOnly
  := by
  unfold LoggerManager.setFormatter
  split
  case h_1 => apply h
  case h_2 l hl =>
    have hheap : RootOnly { s with heap := followAll s.heap val l.mAppenders } := h
    apply hheap.set hl

/-- Operations on `root` attach appenders to `root` only. -/
theorem RootOnly.step {op : Operation} {s s' : LoggerManager} (h : s.RootOnly) (hop : OnRoot op)
    (hstep : system.step op s = some s') :
  s'.RootOnly
  := by
  simp only [system] at hstep
  split at hstep
  case isFalse => cases hstep
  case isTrue hexists =>
    obtain rfl := Option.some.inj hstep
    cases op with
    | getLogger name =>
        obtain rfl := hop.1 name rfl
        intro name' hname'
        simp only [Operation.apply, LoggerManager.getLogger]
        split
        · apply h name' hname'
        · rw [set_of_ne s hname']
          apply h name' hname'
    | addAppender name ap =>
        obtain rfl := hop.2.1 name ap rfl
        obtain ⟨l, hl⟩ := Option.isSome_iff_exists.mp hexists.1
        rw [Operation.apply, addAppender_eq hl]
        have hheap : RootOnly
            { s with heap := Function.update s.heap ap ((s.heap ap).inherit l.mFormatter) } := h
        apply hheap.set hl
    | setFormatter name val => apply h.setFormatter
    | setPattern name val =>
        simp only [Operation.apply, setPattern]
        split
        · apply h
        · apply h.setFormatter
    | delAppender name ap => apply h.modify
    | clearAppender name => apply h.modify
    | setLevel name val => apply h.modify
    | newAppender | setAppenderFormatter | setAppenderLevel => apply h

/-- With one logger, an appender is attached to at most one logger. -/
theorem legal_of_onRoot {ops : List Operation} (h : ∀ op ∈ ops, OnRoot op) {s : LoggerManager}
    (hs : s.RootOnly) :
  system.Meets Legal ops s
  := by
  induction ops generalizing s with
  | nil => trivial
  | cons op ops ih =>
      obtain ⟨hop, hops⟩ := List.forall_mem_cons.mp h
      constructor
      · refine ⟨fun name ap heq name' l' ha => ?_, hop.2.2⟩
        rw [hop.2.1 name ap heq]
        by_contra hname
        have hnone := hs name' hname
        rw [ha.logger] at hnone
        cases hnone
      · intro s' hs'
        apply ih hops (hs.step hop hs')

theorem new_rootOnly :
  new.RootOnly
  := by
  intro name hname
  by_contra hl
  obtain ⟨l, hl⟩ := Option.ne_none_iff_exists'.mp hl
  apply hname (new_mLoggers hl).1

/-- An appender of `root` is detached while `root` gets another formatter. -/
def detached : List Operation :=
  [.newAppender .stdout, .addAppender "root" 1, .delAppender "root" 1, .setPattern "root" "%m"]

theorem detached_onRoot {op : Operation} (h : op ∈ detached) :
  OnRoot op
  := by
  simp only [detached, List.mem_cons, List.not_mem_nil, or_false] at h
  obtain rfl | rfl | rfl | rfl := h <;> simp [OnRoot]

theorem inStep_iff_detached :
  system.Along InStep detached new ↔ system.Meets Inherits detached new
  := inStep_iff detached (s := ((system.exec detached new).getD new))
    (legal_of_onRoot (fun _ => detached_onRoot) new_rootOnly) rfl

/-- Attached again, the appender keeps the formatter of before. -/
theorem reattached_not_inStep :
  let ops := detached ++ [.addAppender "root" 1]
  system.Meets Legal ops new ∧ ∃ s, system.exec ops new = some s ∧ ¬ s.InStep
  := by
  refine ⟨legal_of_onRoot (fun op hop => ?_) new_rootOnly, _, rfl, fun h => ?_⟩
  · obtain hop | hop := List.mem_append.mp hop
    · apply detached_onRoot hop
    · obtain rfl := List.mem_singleton.mp hop
      simp [OnRoot]
  · have hap := h "root" _ 1 ⟨rfl, by decide⟩ rfl
    revert hap
    decide

/-! ### Formatters that `log` dereferences -/

/-- Every appender that `Logger::log` reaches and that passes its own level check has a
formatter. -/
def Formats (s : LoggerManager) : Prop :=
  ∀ depth name (level : LogLevel), ∀ ap ∈ s.reached level depth name,
    (s.heap ap).mLevel.toNat ≤ level.toNat → (s.heap ap).mFormatter ≠ none

/-- An appender whose formatter is set to a null pointer is not attached. -/
def KeepsFormatter (op : Operation) (s : LoggerManager) : Prop :=
  ∀ ap, op = .setAppenderFormatter ap none → ∀ name l, ¬ s.Attached name l ap

/-- `Logger::log` dereferences no null formatter. -/
theorem formats_iff_log {s : LoggerManager} (strftime : Strftime) (event : LogEvent) :
  s.Formats ↔ ∀ depth name level, s.log strftime depth name level event ≠ none
  := by
  apply forall₃_congr
  intro depth name level
  rw [log, mapM_ne_none_iff]
  apply forall₂_congr
  intro ap _
  unfold LogAppender.log
  split
  case isTrue h => simp [h]
  case isFalse h => simp [h]

/-- What `log` reaches is attached. -/
theorem attached_of_mem_reached {s : LoggerManager} {level : LogLevel} {depth : ℕ}
    {name : String} {ap : AppenderId} (h : ap ∈ s.reached level depth name) :
  ∃ name' l, s.Attached name' l ap
  := by
  induction depth generalizing name with
  | zero => cases h
  | succ depth ih =>
      rw [reached] at h
      split at h
      case h_1 => cases h
      case h_2 l hl =>
        split at h
        case isFalse => cases h
        case isTrue =>
          split at h
          case isTrue =>
            split at h
            · cases h
            · apply ih h
          case isFalse => exact ⟨name, l, hl, h⟩

/-- Every attached appender is reached by a record of level `FATAL`. -/
theorem mem_reached_of_attached {s : LoggerManager} {name : String} {l : Logger}
    {ap : AppenderId} (h : s.Attached name l ap) :
  ap ∈ s.reached .fatal 1 name
  := by
  have hne : l.mAppenders ≠ [] := List.ne_nil_of_mem h.mem
  simp [reached, h.logger, LogLevel.toNat_le_fatal, hne, h.mem]

/-- All attached appenders have to have a formatter, as a record of level `FATAL` reaches each of
them. -/
theorem formats_iff_attached {s : LoggerManager} :
  s.Formats ↔ ∀ name l ap, s.Attached name l ap → (s.heap ap).mFormatter ≠ none
  := by
  constructor
  · intro h name l ap ha
    apply h 1 name .fatal ap (mem_reached_of_attached ha)
    apply LogLevel.toNat_le_fatal
  · intro h depth name level ap hap _
    obtain ⟨name', l, ha⟩ := attached_of_mem_reached hap
    apply h name' l ap ha

/-! ### The effect of a step -/

/-- Every attached appender has been constructed. -/
def Constructed (s : LoggerManager) : Prop :=
  ∀ name l ap, s.Attached name l ap → ap < s.next

/-- A step attaches only appenders that have been constructed. -/
theorem Constructed.step {op : Operation} {s s' : LoggerManager} (h : s.Constructed)
    (hstep : system.step op s = some s') :
  s'.Constructed
  := by
  intro name' l' ap' ha
  obtain ⟨name, ap, l, rfl, hl, hap, rfl⟩ | ⟨ap, val, rfl, hap, rfl⟩ | ⟨-, -, hs'⟩ :=
    step_cases hstep
  · have hnext : (s.addAppender name ap).next = s.next := by rw [addAppender_eq hl]; rfl
    rw [hnext]
    obtain ⟨l₀, h₀, -⟩ | ⟨-, rfl, -⟩ := attached_addAppender hl ha
    · apply h name' l₀ ap' h₀
    · apply hap
  · apply h name' l' ap' ⟨ha.logger, ha.mem⟩
  · obtain ⟨name, val, l, hl, rfl⟩ | hkeeps := hs'
    · have hnext : (s.setFormatter name val).next = s.next := by rw [setFormatter_eq hl]; rfl
      rw [hnext]
      obtain ⟨rfl, hap, -⟩ | ⟨-, ha⟩ := attached_setFormatter hl ha
      · apply h name' l ap' ⟨hl, hap⟩
      · apply h name' l' ap' ha
    · obtain ⟨l₀, h₀, -⟩ := hkeeps.attached name' l' ap' ha
      apply Nat.lt_of_lt_of_le (h name' l₀ ap' h₀) hkeeps.next

/-- A step keeps every attached appender with a formatter if and only if it takes no
formatter away from one. -/
theorem Formats.step_iff {op : Operation} {s s' : LoggerManager} (h : s.Formats)
    (hs : s.Constructed) (hstep : system.step op s = some s') :
  s'.Formats ↔ KeepsFormatter op s
  := by
  rw [formats_iff_attached] at h ⊢
  obtain ⟨name, ap, l, rfl, hl, hap, rfl⟩ | ⟨ap, val, rfl, hap, rfl⟩ | ⟨-, hset, hs'⟩ :=
    step_cases hstep
  · refine iff_of_true (fun name' l' ap' ha => ?_) nofun
    rw [heap_addAppender hl]
    split
    · apply LogAppender.inherit_ne_none
    · obtain ⟨l₀, h₀, -⟩ | ⟨-, hap', -⟩ := attached_addAppender hl ha
      · apply h name' l₀ ap' h₀
      · contradiction
  · constructor
    · rintro h' _ ⟨⟩ name l ha
      apply h' name l ap ⟨ha.logger, ha.mem⟩
      simp [setAppenderFormatter, modifyAppender, LogAppender.setFormatter]
    · intro hkeeps name l ap' ha
      have hold : s.Attached name l ap' := ⟨ha.logger, ha.mem⟩
      by_cases hne : ap' = ap
      · subst hne
        have hval : val ≠ none := by
          rintro rfl
          apply hkeeps ap' rfl name l hold
        simpa [setAppenderFormatter, modifyAppender, LogAppender.setFormatter] using hval
      · simp only [setAppenderFormatter, modifyAppender, Function.update_of_ne hne]
        apply h name l ap' hold
  · refine iff_of_true (fun name' l' ap' ha => ?_) fun ap heq => absurd heq (hset ap none)
    obtain ⟨name, val, l, hl, rfl⟩ | hkeeps := hs'
    · rw [heap_setFormatter hl]
      obtain ⟨rfl, hap, -⟩ | ⟨-, ha⟩ := attached_setFormatter hl ha
      · rw [if_pos hap]
        apply LogAppender.follow_ne_none (h name' l ap' ⟨hl, hap⟩)
      · split
        · apply LogAppender.follow_ne_none (h name' l' ap' ha)
        · apply h name' l' ap' ha
    · obtain ⟨l₀, h₀, -⟩ := hkeeps.attached name' l' ap' ha
      rw [(hkeeps.formatter ap' (hs name' l₀ ap' h₀)).1]
      apply h name' l₀ ap' h₀

/-- In every run, all appenders that `log` reaches and that pass their own level check have a
formatter in every state if and only if no attached appender is given a null formatter. -/
theorem formats_iff (ops : List Operation) {s : LoggerManager}
    (hexec : system.exec ops new = some s) :
  system.Along Formats ops new ↔ system.Meets KeepsFormatter ops new
  := by
  have hconstructed : new.Constructed := fun _ _ _ ha => new_wf.lt ha
  have hformats : new.Formats := by
    rw [formats_iff_attached]
    intro name l ap ha
    simp [(new_attached ha).2.2]
  apply Transition.System.along_iff_meets_of_any _ _ hconstructed hformats ops hexec
  · exact fun op s s' hs hstep => hs.step hstep
  · exact fun op s s' hs hP hstep => hP.step_iff hs hstep

/-- An appender is attached to `root`, and then its formatter is set to a null pointer. -/
def unformatted : List Operation :=
  [.newAppender .stdout, .addAppender "root" 1, .setAppenderFormatter 1 none]

/-- The formatter of an appender is set to a null pointer before it is attached. -/
def reformatted : List Operation :=
  [.newAppender .stdout, .setAppenderFormatter 1 none, .addAppender "root" 1]

theorem meets_reformatted :
  system.Meets KeepsFormatter reformatted new
  := by
  refine ⟨nofun, fun s hs => ⟨?_, fun t _ => ⟨nofun, fun _ _ => trivial⟩⟩⟩
  rintro ap ⟨⟩ name l ⟨hl, hap⟩
  obtain rfl : _ = s := Option.some.inj hs
  have happ : 1 = 0 := (new_attached ⟨hl, hap⟩).2.1
  cases happ

theorem formats_iff_unformatted :
  ¬ system.Along Formats unformatted new ∧ system.Along Formats reformatted new
  := by
  constructor
  · intro halong
    have hmeets := (formats_iff unformatted (s := (system.exec unformatted new).getD new) rfl).mp
      halong
    obtain ⟨-, hmeets⟩ := hmeets
    obtain ⟨-, hmeets⟩ := hmeets _ rfl
    obtain ⟨hkeeps, -⟩ := hmeets _ rfl
    exact hkeeps 1 rfl "root" _ ⟨rfl, by decide⟩
  · apply (formats_iff reformatted (s := (system.exec reformatted new).getD new) rfl).mpr
    apply meets_reformatted

/-- `log` of `root` dereferences the null pointer. -/
theorem log_unformatted :
  ∃ s, system.exec unformatted new = some s ∧ ¬ s.Formats ∧
    ∀ strftime event, s.log strftime 1 "root" .info event = none
  := by
  refine ⟨_, rfl, fun h => ?_, fun _ _ => ?_⟩
  · apply h 1 "root" .info 1 (by decide) (by decide) rfl
  · rfl

end LoggerManager

end WbServer
