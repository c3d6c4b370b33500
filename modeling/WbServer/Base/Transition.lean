import Mathlib.Tactic

/-!
# Transition systems

A transition system has initial states and a partial step function; the label of a step
resolves all choices. `Reaches ok s` says that `s` is reached by steps that each meet the
condition `ok` on the label and the state before the step.

For a single run, `Meets ok ls s` says that each of its steps meets a condition and
`Along P ls s` that a property holds in each of its states; `along_iff_meets` derives from
one step that the two are equivalent.
-/

namespace Transition

/-- A transition system with states `σ` and labels `ℓ`. -/
structure System (σ ℓ : Type*) where
  init : σ → Prop
  step : ℓ → σ → Option σ

namespace System

variable {σ ℓ : Type*} (S : System σ ℓ)

/-- The states reached from an initial state by steps that meet the condition `ok`. -/
inductive Reaches (ok : ℓ → σ → Prop) : σ → Prop where
  | init {s : σ} (h : S.init s) : Reaches ok s
  | step {s s' : σ} {l : ℓ} (h : Reaches ok s) (hok : ok l s) (hstep : S.step l s = some s') :
      Reaches ok s'

/-- The states reached by any steps. -/
abbrev Reachable : σ → Prop := S.Reaches fun _ _ => True

/-- The state after the steps with the given labels. -/
def exec : List ℓ → σ → Option σ
  | [], s => some s
  | l :: ls, s => (S.step l s).bind (exec ls)

/-- Executing labels in two parts. -/
theorem exec_append (ls ls' : List ℓ) (s : σ) :
  S.exec (ls ++ ls') s = (S.exec ls s).bind (S.exec ls')
  := by
  induction ls generalizing s with
  | nil => rfl
  | cons l ls ih =>
      simp only [List.cons_append, exec, Option.bind_assoc]
      congr
      funext t
      apply ih

variable {S}

/-- What holds initially and is preserved by every step that meets the condition holds of
every state reached by such steps. -/
theorem Reaches.invariant {ok : ℓ → σ → Prop} {inv : σ → Prop} (hinit : ∀ s, S.init s → inv s)
    (hstep : ∀ l s s', inv s → ok l s → S.step l s = some s' → inv s') {s : σ}
    (h : S.Reaches ok s) :
  inv s
  := by
  induction h with
  | init h => apply hinit _ h
  | step _ hok hs ih => apply hstep _ _ _ ih hok hs

/-- A weaker condition reaches more states. -/
theorem Reaches.mono {ok ok' : ℓ → σ → Prop} (h : ∀ l s, ok l s → ok' l s) {s : σ}
    (hs : S.Reaches ok s) :
  S.Reaches ok' s
  := by
  induction hs with
  | init h => apply Reaches.init h
  | step _ hok hs ih => apply Reaches.step ih (h _ _ hok) hs

/-! ### Single runs -/

variable (S) in
/-- Every step of the run with labels `ls` from `s` meets the condition. -/
def Meets (ok : ℓ → σ → Prop) : List ℓ → σ → Prop
  | [], _ => True
  | l :: ls, s => ok l s ∧ ∀ s', S.step l s = some s' → Meets ok ls s'

/-- A run whose first step is known. -/
theorem meets_cons {ok : ℓ → σ → Prop} {l : ℓ} {ls : List ℓ} {s t : σ}
    (h : S.step l s = some t) :
  S.Meets ok (l :: ls) s ↔ ok l s ∧ S.Meets ok ls t
  := by
  apply and_congr_right
  intro _
  constructor
  · exact fun hls => hls t h
  · intro hls t' ht'
    rwa [Option.some.inj (ht'.symm.trans h)]

/-- A condition that every step meets. -/
theorem meets_of_forall {ok : ℓ → σ → Prop} (ls : List ℓ) (h : ∀ l ∈ ls, ∀ s, ok l s) (s : σ) :
  S.Meets ok ls s
  := by
  induction ls generalizing s with
  | nil => trivial
  | cons l ls ih =>
      obtain ⟨hl, hls⟩ := List.forall_mem_cons.mp h
      use hl s
      intro s' _
      apply ih hls

/-- Executing labels with steps that meet the condition. -/
theorem Reaches.exec_meets {ok : ℓ → σ → Prop} {s s' : σ} (h : S.Reaches ok s) (ls : List ℓ)
    (hmeets : S.Meets ok ls s) (hexec : S.exec ls s = some s') :
  S.Reaches ok s'
  := by
  induction ls generalizing s with
  | nil =>
      obtain rfl : s = s' := by simpa [System.exec] using hexec
      apply h
  | cons l ls ih =>
      obtain ⟨t, ht, hexec⟩ := Option.bind_eq_some_iff.mp hexec
      obtain ⟨hl, hls⟩ := hmeets
      apply ih (h.step hl ht) (hls t ht) hexec

/-- Executing labels that meet the condition in every state. -/
theorem Reaches.exec {ok : ℓ → σ → Prop} {s s' : σ} (h : S.Reaches ok s) (ls : List ℓ)
    (hok : ∀ l ∈ ls, ∀ s, ok l s) (hexec : S.exec ls s = some s') :
  S.Reaches ok s'
  := h.exec_meets ls (meets_of_forall ls hok s) hexec

/-- Executing labels stays within the reachable states. -/
theorem Reachable.exec {s s' : σ} (h : S.Reachable s) (ls : List ℓ)
    (hexec : S.exec ls s = some s') :
  S.Reachable s'
  := Reaches.exec h ls (fun _ _ _ => trivial) hexec

/-- A property of steps that is equivalent to a condition as long as all steps before meet
the condition: every step of a run has the property if and only if every step meets the
condition. -/
theorem meets_iff {legal ok P : ℓ → σ → Prop} {inv : σ → Prop}
    (hinv : ∀ l s s', inv s → legal l s → ok l s → S.step l s = some s' → inv s')
    (hP : ∀ l s s', inv s → legal l s → S.step l s = some s' → (P l s ↔ ok l s))
    {s s' : σ} (hs : inv s) (ls : List ℓ) (hlegal : S.Meets legal ls s)
    (hexec : S.exec ls s = some s') :
  S.Meets P ls s ↔ S.Meets ok ls s
  := by
  induction ls generalizing s with
  | nil => exact Iff.rfl
  | cons l ls ih =>
      obtain ⟨t, ht, hexec⟩ := Option.bind_eq_some_iff.mp hexec
      obtain ⟨hl, hls⟩ := (meets_cons ht).mp hlegal
      have hok : P l s ↔ ok l s := hP l s t hs hl ht
      have hrest (h : ok l s) : S.Meets P ls t ↔ S.Meets ok ls t :=
        ih (hinv l s t hs hl h ht) hls hexec
      rw [meets_cons ht, meets_cons ht, hok]
      apply and_congr_right hrest

variable (S) in
/-- The property holds in every state of the run with labels `ls` from `s`. -/
def Along (P : σ → Prop) : List ℓ → σ → Prop
  | [], s => P s
  | l :: ls, s => P s ∧ ∀ s', S.step l s = some s' → Along P ls s'

/-- A property holds in every state of a run if it holds in the first one and behind every
step. -/
theorem along_iff {P : σ → Prop} (ls : List ℓ) (s : σ) :
  S.Along P ls s ↔ P s ∧ S.Meets (fun l s => ∀ s', S.step l s = some s' → P s') ls s
  := by
  induction ls generalizing s with
  | nil => exact ⟨fun h => ⟨h, trivial⟩, And.left⟩
  | cons l ls ih =>
      constructor
      · rintro ⟨hs, hls⟩
        have hnext (t : σ) (ht : S.step l s = some t) := (ih t).mp (hls t ht)
        exact ⟨hs, fun t ht => (hnext t ht).1, fun t ht => (hnext t ht).2⟩
      · rintro ⟨hs, hl, hls⟩
        exact ⟨hs, fun t ht => (ih t).mpr ⟨hl t ht, hls t ht⟩⟩

/-- A property that a step keeps if and only if it meets the condition: it holds in every
state of a run if and only if every step meets the condition. -/
theorem along_iff_meets {legal ok : ℓ → σ → Prop} {inv P : σ → Prop}
    (hinv : ∀ l s s', inv s → legal l s → S.step l s = some s' → inv s')
    (hP : ∀ l s s', inv s → P s → legal l s → S.step l s = some s' → (P s' ↔ ok l s))
    {s s' : σ} (hs : inv s) (hPs : P s) (ls : List ℓ) (hlegal : S.Meets legal ls s)
    (hexec : S.exec ls s = some s') :
  S.Along P ls s ↔ S.Meets ok ls s
  := by
  have hinv' : ∀ l s s', inv s ∧ P s → legal l s → ok l s → S.step l s = some s' →
      inv s' ∧ P s' := by
    rintro l s s' ⟨hs, hPs⟩ hl hok hstep
    exact ⟨hinv l s s' hs hl hstep, (hP l s s' hs hPs hl hstep).mpr hok⟩
  have hP' : ∀ l s s', inv s ∧ P s → legal l s → S.step l s = some s' →
      ((∀ t, S.step l s = some t → P t) ↔ ok l s) := by
    rintro l s s' ⟨hs, hPs⟩ hl hstep
    rw [← hP l s s' hs hPs hl hstep]
    constructor
    · exact fun h => h s' hstep
    · intro h t ht
      rwa [Option.some.inj (ht.symm.trans hstep)]
  rw [along_iff, and_iff_right hPs]
  apply meets_iff hinv' hP' ⟨hs, hPs⟩ ls hlegal hexec

/-- The same for runs with any labels. -/
theorem along_iff_meets_of_any {ok : ℓ → σ → Prop} {inv P : σ → Prop}
    (hinv : ∀ l s s', inv s → S.step l s = some s' → inv s')
    (hP : ∀ l s s', inv s → P s → S.step l s = some s' → (P s' ↔ ok l s))
    {s s' : σ} (hs : inv s) (hPs : P s) (ls : List ℓ) (hexec : S.exec ls s = some s') :
  S.Along P ls s ↔ S.Meets ok ls s
  := by
  have hlegal : S.Meets (fun _ _ => True) ls s := meets_of_forall ls (fun _ _ _ => trivial) s
  apply along_iff_meets _ _ hs hPs ls hlegal hexec
  · exact fun l s s' hs _ hstep => hinv l s s' hs hstep
  · exact fun l s s' hs hPs _ hstep => hP l s s' hs hPs hstep

/-! ### Refinement -/

variable (S) in
/-- Some steps lead from `s` to `s'`. -/
def Leads (s s' : σ) : Prop :=
  ∃ ls, S.exec ls s = some s'

theorem Leads.refl (s : σ) :
  S.Leads s s
  := ⟨[], rfl⟩

theorem Leads.of_step {l : ℓ} {s s' : σ} (h : S.step l s = some s') :
  S.Leads s s'
  := ⟨[l], by simp [exec, h]⟩

theorem Leads.trans {s t u : σ} (h : S.Leads s t) (h' : S.Leads t u) :
  S.Leads s u
  := by
  obtain ⟨ls, hls⟩ := h
  obtain ⟨ls', hls'⟩ := h'
  use ls ++ ls'
  rw [exec_append, hls]
  apply hls'

/-- A loop whose iterations are steps. -/
theorem Leads.foldlM {α : Type*} {f : σ → α → Option σ} (inv : σ → Prop)
    (hf : ∀ s a s', inv s → f s a = some s' → S.Leads s s' ∧ inv s') {l : List α} {s s' : σ}
    (hs : inv s) (h : l.foldlM f s = some s') :
  S.Leads s s' ∧ inv s'
  := by
  induction l generalizing s with
  | nil =>
      obtain rfl : s = s' := by simpa using h
      exact ⟨.refl s, hs⟩
  | cons a l ih =>
      rw [List.foldlM_cons] at h
      obtain ⟨t, ht, h⟩ := Option.bind_eq_some_iff.mp h
      obtain ⟨hlead, hinv⟩ := hf s a t hs ht
      obtain ⟨hrest, hinv'⟩ := ih hinv h
      exact ⟨hlead.trans hrest, hinv'⟩

/-- If every step of a system is, in the eyes of `f`, a sequence of steps of `S`, then `f`
maps its reachable states to reachable states of `S`. -/
theorem Reachable.map {τ m : Type*} {T : System τ m} {f : τ → σ}
    (hinit : ∀ t, T.init t → S.Reachable (f t))
    (hstep : ∀ l t t', T.step l t = some t' → S.Leads (f t) (f t')) {t : τ}
    (h : T.Reachable t) :
  S.Reachable (f t)
  := by
  apply h.invariant hinit
  intro l t t' ht _ hl
  obtain ⟨ls, hls⟩ := hstep l t t' hl
  apply Reachable.exec ht ls hls

/-! ### Halting -/

variable (S) in
/-- The system that takes no step in a state that has halted. -/
def halting (halted : σ → Bool) : System σ ℓ where
  init := S.init
  step l s := if halted s then none else S.step l s

theorem halting_step {halted : σ → Bool} {l : ℓ} {s s' : σ} :
  (S.halting halted).step l s = some s' ↔ halted s = false ∧ S.step l s = some s'
  := by
  cases h : halted s <;> simp [halting, h]

theorem Reachable.of_halting {halted : σ → Bool} {s : σ}
    (h : (S.halting halted).Reachable s) :
  S.Reachable s
  := by
  apply Reachable.map (f := id) _ _ h
  · exact fun s hs => .init hs
  · exact fun l s s' hstep => .of_step (halting_step.mp hstep).2

theorem exec_of_halting {halted : σ → Bool} {ls : List ℓ} {s s' : σ}
    (h : (S.halting halted).exec ls s = some s') :
  S.exec ls s = some s'
  := by
  induction ls generalizing s with
  | nil => apply h
  | cons l ls ih =>
      obtain ⟨t, ht, h⟩ := Option.bind_eq_some_iff.mp h
      rw [exec, (halting_step.mp ht).2, Option.bind_some]
      apply ih h

/-! ### Histories -/

/-- A state, and what has been observed of the steps that led to it. -/
structure Observed (σ ω : Type*) where
  state : σ
  history : List ω

variable {ω : Type*}

variable (S) in
/-- The system whose steps are observed. -/
def observed (emit : ℓ → σ → List ω) : System (Observed σ ω) ℓ where
  init s := S.init s.state ∧ s.history = []
  step l s := (S.step l s.state).map fun s' => ⟨s', s.history ++ emit l s.state⟩

/-- An observed step is a step. -/
theorem observed_step {emit : ℓ → σ → List ω} {l : ℓ} {s s' : Observed σ ω} :
  (S.observed emit).step l s = some s' ↔
    S.step l s.state = some s'.state ∧ s'.history = s.history ++ emit l s.state
  := by
  obtain ⟨t, h⟩ := s'
  simp only [observed, Option.map_eq_some_iff, Observed.mk.injEq]
  constructor
  · rintro ⟨t', ht', rfl, hh⟩
    exact ⟨ht', hh.symm⟩
  · rintro ⟨ht, hh⟩
    exact ⟨t, ht, rfl, hh.symm⟩

theorem Reachable.of_observed {emit : ℓ → σ → List ω} {s : Observed σ ω}
    (h : (S.observed emit).Reachable s) :
  S.Reachable s.state
  := by
  apply Reachable.map (f := Observed.state) _ _ h
  · exact fun s hs => .init hs.1
  · exact fun l s s' hstep => .of_step (observed_step.mp hstep).1

end System

end Transition
