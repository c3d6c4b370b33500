import WbServer.Base.Locks

/-!
# Exclusion and progress

Threads that respect an order of the locks also hold the locks that their actions need, if
this is checked action by action. Then two threads are never about to act where they need the
same lock, and as long as a thread holds a lock, no other thread changes what it guards.

As no threads wait for each other in a cycle, some thread can go on as long as one is not
done.
-/

namespace Locks

open Transition

variable {κ σ α ι : Type*}

/-! ### What a step does -/

section Steps

variable [DecidableEq κ] {callable : α → σ → Bool} {expand : Actions κ σ α ι}

/-- The thread of a step. -/
def Label.thread : Label α ι → ℕ
  | .call t _ => t
  | .next t _ => t

/-- A thread takes a lock that is free, releases a lock, or acts. -/
theorem Threads.next_cases {s s' : Threads κ σ α} {t : ℕ} {i : ι}
    (h : s.next expand t i = some s') :
  (∃ m is, s.code t = .lock m :: is ∧ s.owner m = none ∧
      s' = { s with
        owner := Function.update s.owner m (some t), code := Function.update s.code t is }) ∨
    (∃ m is, s.code t = .unlock m :: is ∧
      s' = { s with
        owner := Function.update s.owner m none, code := Function.update s.code t is }) ∨
    ∃ a is, s.code t = .act a :: is ∧
      s' = { s with
        shared := (expand a i s.shared).1
        code := Function.update s.code t ((expand a i s.shared).2 ++ is) }
  := by
  unfold Threads.next at h
  split at h
  case h_1 => cases h
  case h_2 m is hcode =>
    split at h
    case h_2 => cases h
    case h_1 hfree => exact .inl ⟨m, is, hcode, hfree, (Option.some.inj h).symm⟩
  case h_3 m is hcode => exact .inr (.inl ⟨m, is, hcode, (Option.some.inj h).symm⟩)
  case h_4 a is hcode => exact .inr (.inr ⟨a, is, hcode, (Option.some.inj h).symm⟩)

/-- A thread begins with an action, or executes its next instruction. -/
theorem Threads.step_cases {l : Label α ι} {s s' : Threads κ σ α}
    (h : Threads.step callable expand l s = some s') :
  (∃ t a, l = .call t a ∧ s.code t = [] ∧ callable a s.shared = true ∧
      s' = { s with code := Function.update s.code t [.act a] }) ∨
    ∃ t i, l = .next t i ∧ s.next expand t i = some s'
  := by
  cases l with
  | call t a =>
      simp only [Threads.step] at h
      split at h
      case isFalse => cases h
      case isTrue hc => exact .inl ⟨t, a, rfl, hc.1, hc.2, (Option.some.inj h).symm⟩
  | next t i => exact .inr ⟨t, i, rfl, h⟩

/-- A step changes only the code of its thread. -/
theorem Threads.step_code {l : Label α ι} {s s' : Threads κ σ α}
    (h : Threads.step callable expand l s = some s') {u : ℕ} (hu : u ≠ l.thread) :
  s'.code u = s.code u
  := by
  obtain ⟨t, a, rfl, -, -, rfl⟩ | ⟨t, i, rfl, hnext⟩ := step_cases h
  · exact Function.update_of_ne hu _ _
  · obtain ⟨_, _, -, -, rfl⟩ | ⟨_, _, -, rfl⟩ | ⟨_, _, -, rfl⟩ := next_cases hnext <;>
      exact Function.update_of_ne hu _ _

end Steps

/-! ### The locks that actions need -/

section Needs

variable (fresh : Set κ) (needs entry : α → Set κ)

/-- Code that holds what its actions need, out of the locks that are held before it and those
of `fresh` that it takes. An action releases its entry. -/
def Guarded : Set κ → List (Instr κ α) → Prop
  | _, [] => True
  | held, .lock m :: is => Guarded (held ∪ {m} ∩ fresh) is
  | held, .unlock m :: is => Guarded (held \ {m}) is
  | held, .act a :: is => needs a ⊆ held ∧ Guarded (held \ entry a) is

variable {fresh needs entry}

theorem Guarded.mono {held held' : Set κ} (hsub : held ⊆ held') {is : List (Instr κ α)}
    (h : Guarded fresh needs entry held is) :
  Guarded fresh needs entry held' is
  := by
  induction is generalizing held held' with
  | nil => trivial
  | cons i is ih =>
      cases i with
      | lock m => apply ih (Set.union_subset_union_left _ hsub) h
      | unlock m => apply ih (Set.sdiff_subset_sdiff_left hsub) h
      | act a =>
          constructor
          · apply h.1.trans hsub
          · apply ih (Set.sdiff_subset_sdiff_left hsub) h.2

/-- Code that releases all that it takes, in front of other code. -/
theorem Guarded.append {rank : κ → ℕ} {floor : α → ℕ} {f : ℕ} {held held' rest : Set κ}
    {bs is : List (Instr κ α)} (hordered : Ordered rank floor entry held bs)
    (habove : Above rank floor f bs) (hrest : ∀ k ∈ rest, rank k < f)
    (hdisjoint : ∀ k ∈ held, k ∉ rest) (hsub : rest ⊆ held')
    (hbs : Guarded fresh needs entry held' bs) (his : Guarded fresh needs entry rest is) :
  Guarded fresh needs entry held' (bs ++ is)
  := by
  induction bs generalizing held held' with
  | nil => apply his.mono hsub
  | cons b bs ih =>
      cases b with
      | lock m =>
          have hfloor : f ≤ rank m := habove.1 m List.mem_cons_self
          apply ih hordered.2 habove.tail _ (hsub.trans Set.subset_union_left) hbs
          rintro k (rfl | hk) hkr
          · apply (hrest k hkr).not_ge hfloor
          · apply hdisjoint k hk hkr
      | unlock m =>
          obtain ⟨hm, hordered⟩ := hordered
          apply ih hordered habove.tail (fun k hk => hdisjoint k hk.1) _ hbs
          intro k hk
          use hsub hk
          rintro rfl
          apply hdisjoint k hm hk
      | act a =>
          obtain ⟨hentry, -, hordered⟩ := hordered
          use hbs.1
          apply ih hordered habove.tail (fun k hk => hdisjoint k hk.1) _ hbs.2
          intro k hk
          use hsub hk
          exact fun hka => hdisjoint k (hentry hka) hk

/-- Code whose actions need no locks. -/
theorem guarded_of_forall {is : List (Instr κ α)} (h : ∀ a, .act a ∈ is → needs a = ∅)
    (held : Set κ) :
  Guarded fresh needs entry held is
  := by
  induction is generalizing held with
  | nil => trivial
  | cons i is ih =>
      have ih := ih fun a ha => h a (List.mem_cons_of_mem i ha)
      cases i with
      | lock m => apply ih
      | unlock m => apply ih
      | act a =>
          have ha : needs a = ∅ := h a List.mem_cons_self
          constructor
          · rw [ha]
            apply Set.empty_subset
          · apply ih

/-- Code whose actions need locks that are already held before it. -/
theorem Guarded.needs_subset {held : Set κ} {is : List (Instr κ α)}
    (h : Guarded ∅ needs entry held is) {a : α} (ha : .act a ∈ is) :
  needs a ⊆ held
  := by
  induction is generalizing held with
  | nil => cases ha
  | cons i is ih =>
      cases i with
      | lock m =>
          have hmem : .act a ∈ is := by simpa using ha
          simpa using ih h hmem
      | unlock m =>
          have hmem : .act a ∈ is := by simpa using ha
          exact (ih h hmem).trans Set.sdiff_subset
      | act b =>
          rcases List.mem_cons.mp ha with heq | hmem
          · obtain ⟨rfl⟩ := heq
            apply h.1
          · exact (ih h.2 hmem).trans Set.sdiff_subset

end Needs

/-! ### Exclusion -/

section Exclusion

variable {rank : κ → ℕ} {floor : α → ℕ} {fresh : Set κ} {needs keeps entry : α → Set κ}
variable {inv : σ → Prop} {callable : α → σ → Bool} {expand : Actions κ σ α ι}

variable (needs entry) in
/-- Every action, if what it needs is held, leads to code that holds what its own actions
need. -/
def Protects (fresh : Set κ) (keeps : α → Set κ) (expand : Actions κ σ α ι) : Prop :=
  ∀ a i s, Guarded fresh keeps entry (needs a ∪ entry a) (expand a i s).2

variable (rank floor needs entry inv) in
/-- The code of every thread respects the order and holds what its actions need. -/
structure Covered (s : Threads κ σ α) : Prop where
  safe : Safe rank floor entry inv s
  guarded : ∀ t, Guarded Set.univ needs entry (held s t) (s.code t)

variable {s s' : Threads κ σ α}

/-- A thread holds the locks that its next action needs. -/
theorem Covered.needs_subset (h : Covered rank floor needs entry inv s) {t : ℕ} {a : α}
    {is : List (Instr κ α)} (ht : s.code t = .act a :: is) :
  needs a ⊆ held s t
  := by
  have hguarded := h.guarded t
  rw [ht] at hguarded
  apply hguarded.1

/-- Two threads whose next actions need the same lock are the same. -/
theorem Covered.exclusive (h : Covered rank floor needs entry inv s) {t u : ℕ} {a b : α}
    {is js : List (Instr κ α)} (ht : s.code t = .act a :: is) (hu : s.code u = .act b :: js)
    {m : κ} (ha : m ∈ needs a) (hb : m ∈ needs b) :
  t = u
  := by
  have howner : s.owner m = some t := h.needs_subset ht ha
  have howner' : s.owner m = some u := h.needs_subset hu hb
  rw [howner] at howner'
  apply Option.some.inj howner'

/-- What an action needs and its entry are held when it is next. -/
theorem Covered.guarded_act (hprotects : Protects needs entry fresh keeps expand)
    (h : Covered rank floor needs entry inv s) {t : ℕ} {a : α} {is : List (Instr κ α)}
    (ht : s.code t = .act a :: is) (i : ι) :
  Guarded fresh keeps entry (held s t) (expand a i s.shared).2
  := by
  have hordered := h.safe.ordered t
  rw [ht] at hordered
  apply Guarded.mono _ (hprotects a i s.shared)
  apply Set.union_subset (h.needs_subset ht) hordered.1

variable [DecidableEq κ]

/-- What the other threads hold is not changed by a thread that takes a free lock or releases
its own. -/
theorem held_of_ne {owner : κ → Option ℕ} {m : κ} {t u : ℕ} (hut : u ≠ t) {o : Option ℕ}
    (ho : o = none ∨ o = some t) (hm : owner m = none ∨ owner m = some t) :
  {k | Function.update owner m o k = some u} = {k | owner k = some u}
  := by
  ext k
  by_cases hk : k = m
  · rcases ho with rfl | rfl <;> rcases hm with hm | hm <;> simp [hk, hm, hut.symm]
  · simp [hk]

/-- A thread executes an instruction: its code goes on to hold what its actions need, and the
other threads are not concerned. -/
theorem Safe.guarded_next (hexpand : Disciplined rank floor entry inv expand)
    (hsafe : Safe rank floor entry inv s)
    (h : ∀ u, Guarded fresh keeps entry (held s u) (s.code u)) {t : ℕ} {i : ι}
    (hact : ∀ a is, s.code t = .act a :: is →
      Guarded fresh keeps entry (held s t) (expand a i s.shared).2)
    (hnext : s.next expand t i = some s') (u : ℕ) :
  Guarded fresh keeps entry (held s' u) (s'.code u)
  := by
  have hordered := hsafe.ordered t
  have hguarded := h t
  obtain ⟨m, is, ht, hfree, rfl⟩ | ⟨m, is, ht, rfl⟩ | ⟨a, is, ht, rfl⟩ :=
    Threads.next_cases hnext
  · by_cases hut : u = t
    · subst hut
      rw [ht] at hguarded
      have hguarded : Guarded fresh keeps entry (held s u ∪ {m} ∩ fresh) is := hguarded
      dsimp only
      rw [Function.update_self]
      apply Guarded.mono _ hguarded
      rintro k (hk | ⟨rfl, -⟩)
      · have hkm : k ≠ m := by
          rintro rfl
          exact Option.some_ne_none _ (hk.symm.trans hfree)
        simpa [held, hkm] using hk
      · simp [held]
    · have hheld : held { s with
          owner := Function.update s.owner m (some t), code := Function.update s.code t is } u =
          held s u := held_of_ne hut (.inr rfl) (.inl hfree)
      rw [hheld]
      dsimp only
      rw [Function.update_of_ne hut]
      apply h u
  · rw [ht] at hordered hguarded
    have howner : s.owner m = some t := hordered.1
    by_cases hut : u = t
    · subst hut
      have hguarded : Guarded fresh keeps entry (held s u \ {m}) is := hguarded
      dsimp only
      rw [Function.update_self]
      apply Guarded.mono _ hguarded
      rintro k ⟨hk, hkm⟩
      have hkm : k ≠ m := hkm
      simpa [held, hkm] using hk
    · have hheld : held { s with
          owner := Function.update s.owner m none, code := Function.update s.code t is } u =
          held s u := held_of_ne hut (.inl rfl) (.inr howner)
      rw [hheld]
      dsimp only
      rw [Function.update_of_ne hut]
      apply h u
  · by_cases hut : u = t
    · subst hut
      have hcode := hact a is ht
      rw [ht] at hordered hguarded
      dsimp only
      rw [Function.update_self]
      apply Guarded.append (hexpand.ordered a i s.shared hsafe.shared)
        (hexpand.above a i s.shared hsafe.shared) hordered.2.1 (fun k hk hk' => hk'.2 hk)
        Set.sdiff_subset hcode hguarded.2
    · dsimp only
      rw [Function.update_of_ne hut]
      apply h u

theorem Covered.step (hexpand : Disciplined rank floor entry inv expand)
    (hprotects : Protects needs entry Set.univ needs expand)
    (hcall : ∀ a s, callable a s = true → entry a = ∅ ∧ needs a = ∅) {l : Label α ι}
    (h : Covered rank floor needs entry inv s)
    (hstep : Threads.step callable expand l s = some s') :
  Covered rank floor needs entry inv s'
  := by
  use h.safe.step hexpand (fun a s ha => (hcall a s ha).1) hstep
  obtain ⟨t, a, rfl, hcode, ha, rfl⟩ | ⟨t, i, rfl, hnext⟩ := Threads.step_cases hstep
  · intro u
    dsimp only
    by_cases hut : u = t
    · rw [hut, Function.update_self]
      constructor
      · rw [(hcall a s.shared ha).2]
        apply Set.empty_subset
      · trivial
    · rw [Function.update_of_ne hut]
      apply h.guarded u
  · exact h.safe.guarded_next hexpand h.guarded
      (fun a is ht => h.guarded_act hprotects ht i) hnext

/-- If all actions respect an order of the locks and hold what they need, then this is so in
every reachable state. -/
theorem reachable_covered (hexpand : Disciplined rank floor entry inv expand)
    (hprotects : Protects needs entry Set.univ needs expand)
    (hcall : ∀ a s, callable a s = true → entry a = ∅ ∧ needs a = ∅) {init : σ → Prop}
    (hinit : ∀ s, init s → inv s) (h : (system init callable expand).Reachable s) :
  Covered rank floor needs entry inv s
  := by
  apply h.invariant
  · rintro s ⟨hs, howner, hcode⟩
    constructor
    case safe =>
      constructor
      · apply hinit _ hs
      · intro t
        rw [hcode t, Ordered, Set.eq_empty_iff_forall_notMem]
        simp [held, howner]
    case guarded =>
      intro t
      rw [hcode t]
      trivial
  · intro l s s' hs _ hstep
    apply hs.step hexpand hprotects hcall hstep

/-- If actions lead to further actions only under locks that are not released in between, then
a thread holds these locks as long as such an action is ahead of it. -/
theorem reachable_keeps (hexpand : Disciplined rank floor entry inv expand)
    (hprotects : Protects needs entry Set.univ needs expand)
    (hcall : ∀ a s, callable a s = true → entry a = ∅ ∧ needs a = ∅)
    (hkeeps : Protects needs entry ∅ keeps expand)
    (hcall' : ∀ a s, callable a s = true → keeps a = ∅) {init : σ → Prop}
    (hinit : ∀ s, init s → inv s) (h : (system init callable expand).Reachable s) {t : ℕ} {a : α}
    (ha : .act a ∈ s.code t) :
  keeps a ⊆ held s t
  := by
  have hinv : Covered rank floor needs entry inv s ∧
      ∀ u, Guarded ∅ keeps entry (held s u) (s.code u) := by
    apply h.invariant
    · intro s hs
      use reachable_covered hexpand hprotects hcall hinit (.init hs)
      intro u
      rw [hs.2.2 u]
      trivial
    · rintro l s s' ⟨hcovered, hs⟩ - hstep
      use hcovered.step hexpand hprotects hcall hstep
      obtain ⟨u, b, rfl, hcode, hb, rfl⟩ | ⟨u, i, rfl, hnext⟩ := Threads.step_cases hstep
      · intro v
        dsimp only
        by_cases hvu : v = u
        · rw [hvu, Function.update_self]
          constructor
          · rw [hcall' b s.shared hb]
            apply Set.empty_subset
          · trivial
        · rw [Function.update_of_ne hvu]
          apply hs v
      · exact hcovered.safe.guarded_next hexpand hs
          (fun b is hu => hcovered.guarded_act hkeeps hu i) hnext
  apply (hinv.2 t).needs_subset ha

/-- A thread that holds a lock keeps it as long as only other threads take steps. -/
theorem Covered.owner_step (h : Covered rank floor needs entry inv s) {l : Label α ι}
    (hstep : Threads.step callable expand l s = some s') {m : κ} {t : ℕ}
    (hm : s.owner m = some t) (ht : l.thread ≠ t) :
  s'.owner m = some t
  := by
  obtain ⟨u, a, rfl, -, -, rfl⟩ | ⟨u, i, rfl, hnext⟩ := Threads.step_cases hstep
  · apply hm
  · obtain ⟨k, is, hu, hfree, rfl⟩ | ⟨k, is, hu, rfl⟩ | ⟨a, is, hu, rfl⟩ :=
      Threads.next_cases hnext
    · have hkm : m ≠ k := by
        rintro rfl
        exact Option.some_ne_none _ (hm.symm.trans hfree)
      dsimp only
      rw [Function.update_of_ne hkm, hm]
    · have hordered := h.safe.ordered u
      rw [hu] at hordered
      have howner : s.owner k = some u := hordered.1
      have hkm : m ≠ k := by
        rintro rfl
        exact ht (Option.some.inj (howner.symm.trans hm))
      dsimp only
      rw [Function.update_of_ne hkm, hm]
    · apply hm

end Exclusion

/-! ### What locks guard -/

section Cells

variable {χ : Type*} {V : χ → Type*} (value : (c : χ) → σ → Option (V c)) (guard : χ → Option κ)

/-- Every action changes what a lock guards only if it needs this lock; `value` is what a cell
contains, if it exists. -/
def Confined (needs : α → Set κ) (inv : σ → Prop) (expand : Actions κ σ α ι) : Prop :=
  ∀ a i s c m v, inv s → guard c = some m → m ∉ needs a → value c s = some v →
    value c (expand a i s).1 = some v

variable {value guard}
variable {rank : κ → ℕ} {floor : α → ℕ} {needs entry : α → Set κ} {inv : σ → Prop}
variable {callable : α → σ → Bool} {expand : Actions κ σ α ι} {s s' : Threads κ σ α}
variable [DecidableEq κ]

/-- A step of another thread changes nothing that a lock guards which a thread holds. -/
theorem Covered.value_step (hconfined : Confined value guard needs inv expand)
    (h : Covered rank floor needs entry inv s) {l : Label α ι}
    (hstep : Threads.step callable expand l s = some s') {m : κ} {t : ℕ}
    (hm : s.owner m = some t) (ht : l.thread ≠ t) {c : χ} (hc : guard c = some m) {v : V c}
    (hv : value c s.shared = some v) :
  value c s'.shared = some v
  := by
  obtain ⟨u, a, rfl, -, -, rfl⟩ | ⟨u, i, rfl, hnext⟩ := Threads.step_cases hstep
  · apply hv
  · obtain ⟨k, is, hu, hfree, rfl⟩ | ⟨k, is, hu, rfl⟩ | ⟨a, is, hu, rfl⟩ :=
      Threads.next_cases hnext
    · apply hv
    · apply hv
    · have hneeds : m ∉ needs a := by
        intro ha
        have howner : s.owner m = some u := h.needs_subset hu ha
        exact ht (Option.some.inj (howner.symm.trans hm))
      apply hconfined a i s.shared c m v h.safe.shared hc hneeds hv

/-- As long as a thread holds a lock and only others take steps, it keeps the lock, and what
the lock guards does not change. -/
theorem Covered.value_exec (hexpand : Disciplined rank floor entry inv expand)
    (hprotects : Protects needs entry Set.univ needs expand)
    (hcall : ∀ a s, callable a s = true → entry a = ∅ ∧ needs a = ∅)
    (hconfined : Confined value guard needs inv expand) {init : σ → Prop} {ls : List (Label α ι)}
    (h : Covered rank floor needs entry inv s)
    (hexec : (system init callable expand).exec ls s = some s') {m : κ} {t : ℕ}
    (hm : s.owner m = some t) (ht : ∀ l ∈ ls, l.thread ≠ t) :
  s'.owner m = some t ∧
    ∀ c v, guard c = some m → value c s.shared = some v → value c s'.shared = some v
  := by
  induction ls generalizing s with
  | nil =>
      obtain rfl := Option.some.inj hexec
      exact ⟨hm, fun _ _ _ hv => hv⟩
  | cons l ls ih =>
      obtain ⟨r, hr, hexec⟩ := Option.bind_eq_some_iff.mp hexec
      have hl : l.thread ≠ t := ht l List.mem_cons_self
      have howner : r.owner m = some t := h.owner_step hr hm hl
      obtain ⟨howner', hvalue⟩ := ih (h.step hexpand hprotects hcall hr) hexec howner
        fun l' hl' => ht l' (List.mem_cons_of_mem l hl')
      use howner'
      intro c v hc hv
      apply hvalue c v hc (h.value_step hconfined hr hm hl hc hv)

end Cells

/-! ### Progress -/

section Progress

variable {rank : κ → ℕ} {floor : α → ℕ} {entry : α → Set κ} {inv : σ → Prop}
variable {callable : α → σ → Bool} {expand : Actions κ σ α ι} {s : Threads κ σ α}

/-- A thread that holds a lock is not done. -/
theorem Safe.code_ne_nil (h : Safe rank floor entry inv s) {m : κ} {t : ℕ}
    (hm : s.owner m = some t) :
  s.code t ≠ []
  := by
  intro ht
  have hordered := h.ordered t
  rw [ht] at hordered
  have hmem : m ∈ held s t := hm
  rw [show held s t = ∅ from hordered] at hmem
  apply hmem

variable [DecidableEq κ]

/-- A thread that is not done and does not wait can go on. -/
theorem Threads.next_isSome {t : ℕ} (ht : s.code t ≠ []) (hwaits : ∀ u, ¬ WaitsFor s t u)
    (i : ι) :
  (s.next expand t i).isSome
  := by
  unfold Threads.next
  split
  case h_1 hcode => exact absurd hcode ht
  case h_2 m is hcode =>
    split
    case h_1 => rfl
    case h_2 u hu => exact absurd ⟨m, is, hcode, hu⟩ (hwaits u)
  case h_3 => rfl
  case h_4 => rfl

/-- If finitely many threads are not done, then one of them can go on. -/
theorem Safe.exists_next (h : Safe rank floor entry inv s) (hfinite : {t | s.code t ≠ []}.Finite)
    {t : ℕ} (ht : s.code t ≠ []) (i : ι) :
  ∃ u, s.code u ≠ [] ∧ (s.next expand u i).isSome
  := by
  -- the threads that wait are followed up to one that does not
  let waits (u v : {t | s.code t ≠ []}) : Prop := Relation.TransGen (WaitsFor s) u v
  have : Finite {t | s.code t ≠ []} := hfinite
  have : Std.Irrefl (Function.swap waits) := ⟨fun u => h.no_cycle u⟩
  have : IsTrans _ (Function.swap waits) := ⟨fun _ _ _ huv hvw => hvw.trans huv⟩
  have hwf : WellFounded (Function.swap waits) := Finite.wellFounded_of_trans_of_irrefl _
  obtain ⟨u, -, hu⟩ := hwf.has_min Set.univ ⟨⟨t, ht⟩, trivial⟩
  use u, u.2
  apply Threads.next_isSome u.2
  rintro v ⟨m, is, hcode, hm⟩
  apply hu ⟨v, h.code_ne_nil hm⟩ trivial
  apply Relation.TransGen.single
  exact ⟨m, is, hcode, hm⟩

/-- Only finitely many threads have begun with something. -/
theorem reachable_finite {init : σ → Prop} (h : (system init callable expand).Reachable s) :
  {t | s.code t ≠ []}.Finite
  := by
  apply h.invariant
  · rintro s ⟨-, -, hcode⟩
    simp [hcode]
  · intro l s s' hs _ hstep
    apply (hs.insert l.thread).subset
    intro u hu
    by_cases hul : u = l.thread
    · left
      apply hul
    · right
      have hcode : s'.code u ≠ [] := hu
      rw [Threads.step_code hstep hul] at hcode
      apply hcode

end Progress

end Locks
