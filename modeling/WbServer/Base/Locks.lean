import WbServer.Base.Transition

/-!
# Lock order

Threads execute code that takes and releases locks, which only one thread holds at a time, and
acts on a shared state. What an action does next may depend on the shared state, so that
loops and calls are actions that lead to code.

If the locks have ranks, and a thread only takes locks above all that it holds, then the
threads never wait for each other in a cycle. This is checked action by action: every action
has a floor, below which it takes no lock, and may release locks that its caller has taken.
-/

namespace Locks

/-- An instruction of a thread: it takes or releases a lock, or acts. -/
inductive Instr (κ α : Type*) where
  | lock (m : κ)
  | unlock (m : κ)
  | act (a : α)

/-- The actions: their effect on the shared state, and the code that they lead to. An input
from outside may enter. -/
abbrev Actions (κ σ α ι : Type*) : Type _ := α → ι → σ → σ × List (Instr κ α)

/-- The shared state, the owners of the locks, and the code that is left to each thread. -/
structure Threads (κ σ α : Type*) where
  shared : σ
  owner : κ → Option ℕ
  code : ℕ → List (Instr κ α)

/-- A thread that has nothing to do begins with an action, or a thread executes its next
instruction. -/
inductive Label (α ι : Type*) where
  | call (t : ℕ) (a : α)
  | next (t : ℕ) (i : ι)

variable {κ σ α ι : Type*}

namespace Threads

variable [DecidableEq κ]

/-- The thread executes its next instruction. It does not get past a lock that has an
owner. -/
def next (expand : Actions κ σ α ι) (s : Threads κ σ α) (t : ℕ) (i : ι) :
    Option (Threads κ σ α) :=
  match s.code t with
  | [] => none
  | .lock m :: is =>
      match s.owner m with
      | none =>
          some { s with
            owner := Function.update s.owner m (some t)
            code := Function.update s.code t is }
      | some _ => none
  | .unlock m :: is =>
      some { s with
        owner := Function.update s.owner m none
        code := Function.update s.code t is }
  | .act a :: is =>
      let r := expand a i s.shared
      some { s with shared := r.1, code := Function.update s.code t (r.2 ++ is) }

/-- A step of a thread; `callable` tells with which actions it may begin. -/
def step (callable : α → σ → Bool) (expand : Actions κ σ α ι) :
    Label α ι → Threads κ σ α → Option (Threads κ σ α)
  | .call t a, s =>
      if s.code t = [] ∧ callable a s.shared then
        some { s with code := Function.update s.code t [.act a] }
      else none
  | .next t i, s => s.next expand t i

end Threads

/-- The threads on a shared state as a transition system. -/
def system [DecidableEq κ] (init : σ → Prop) (callable : α → σ → Bool) (expand : Actions κ σ α ι) :
    Transition.System (Threads κ σ α) (Label α ι) where
  init s := init s.shared ∧ (∀ m, s.owner m = none) ∧ ∀ t, s.code t = []
  step := Threads.step callable expand

/-- The thread `t` waits for a lock that the thread `u` holds. -/
def WaitsFor (s : Threads κ σ α) (t u : ℕ) : Prop :=
  ∃ m is, s.code t = .lock m :: is ∧ s.owner m = some u

/-! ### Code that respects the order -/

section Order

variable (rank : κ → ℕ) (floor : α → ℕ) (entry : α → Set κ)

/-- Code that respects the order of the locks and releases all that it holds: a lock is taken
above those that are held, and an action is called with its entry held and everything else
below its floor. -/
def Ordered : Set κ → List (Instr κ α) → Prop
  | held, [] => held = ∅
  | held, .lock m :: is => (∀ k ∈ held, rank k < rank m) ∧ Ordered (insert m held) is
  | held, .unlock m :: is => m ∈ held ∧ Ordered (held \ {m}) is
  | held, .act a :: is =>
      entry a ⊆ held ∧ (∀ k ∈ held \ entry a, rank k < floor a) ∧ Ordered (held \ entry a) is

/-- Code that takes no lock below `f`. -/
def Above (f : ℕ) (is : List (Instr κ α)) : Prop :=
  (∀ m, .lock m ∈ is → f ≤ rank m) ∧ ∀ a, .act a ∈ is → f ≤ floor a

/-- Every action keeps the invariant of the shared state and leads to code that respects the
order, from its entry and above its floor. -/
structure Disciplined (inv : σ → Prop) (expand : Actions κ σ α ι) : Prop where
  keeps : ∀ a i s, inv s → inv (expand a i s).1
  ordered : ∀ a i s, inv s → Ordered rank floor entry (entry a) (expand a i s).2
  above : ∀ a i s, inv s → Above rank floor (floor a) (expand a i s).2

variable {rank floor entry}

theorem Above.tail {f : ℕ} {i : Instr κ α} {is : List (Instr κ α)}
    (h : Above rank floor f (i :: is)) :
  Above rank floor f is
  := ⟨fun m hm => h.1 m (List.mem_cons_of_mem i hm), fun a ha => h.2 a (List.mem_cons_of_mem i ha)⟩

/-- Code that releases all that it takes, in front of other code: what is held for the latter
is below its floor. -/
theorem Ordered.append {f : ℕ} {held rest : Set κ} {bs is : List (Instr κ α)}
    (hbs : Ordered rank floor entry held bs) (habove : Above rank floor f bs)
    (hrest : ∀ k ∈ rest, rank k < f) (hdisjoint : ∀ k ∈ held, k ∉ rest)
    (his : Ordered rank floor entry rest is) :
  Ordered rank floor entry (held ∪ rest) (bs ++ is)
  := by
  induction bs generalizing held with
  | nil =>
      obtain rfl : held = ∅ := hbs
      simpa using his
  | cons b bs ih =>
      cases b with
      | lock m =>
          obtain ⟨hm, hbs⟩ := hbs
          have hfloor : f ≤ rank m := habove.1 m List.mem_cons_self
          constructor
          · rintro k (hk | hk)
            · apply hm k hk
            · apply (hrest k hk).trans_le hfloor
          · rw [← Set.insert_union]
            apply ih hbs habove.tail
            rintro k (rfl | hk) hkr
            · apply (hrest k hkr).not_ge hfloor
            · apply hdisjoint k hk hkr
      | unlock m =>
          obtain ⟨hm, hbs⟩ := hbs
          constructor
          · left
            apply hm
          · have hmr : m ∉ rest := hdisjoint m hm
            rw [Set.union_sdiff_distrib, Set.sdiff_singleton_eq_self hmr]
            apply ih hbs habove.tail
            intro k hk
            apply hdisjoint k hk.1
      | act a =>
          obtain ⟨hentry, hheld, hbs⟩ := hbs
          have hfloor : f ≤ floor a := habove.2 a List.mem_cons_self
          have hrest' : rest \ entry a = rest := by
            rw [sdiff_eq_left, Set.disjoint_left]
            intro k hk hka
            apply hdisjoint k (hentry hka) hk
          constructor
          · apply hentry.trans Set.subset_union_left
          · rw [Set.union_sdiff_distrib, hrest']
            constructor
            · rintro k (hk | hk)
              · apply hheld k hk
              · apply (hrest k hk).trans_le hfloor
            · apply ih hbs habove.tail
              intro k hk
              apply hdisjoint k hk.1

end Order

/-! ### No cycles -/

section Discipline

variable {rank : κ → ℕ} {floor : α → ℕ} {entry : α → Set κ} {inv : σ → Prop}
variable {callable : α → σ → Bool} {expand : Actions κ σ α ι}

/-- The locks that a thread holds. -/
def held (s : Threads κ σ α) (t : ℕ) : Set κ := { m | s.owner m = some t }

variable (rank floor entry inv) in
/-- The code of every thread respects the order. -/
structure Safe (s : Threads κ σ α) : Prop where
  shared : inv s.shared
  ordered : ∀ t, Ordered rank floor entry (held s t) (s.code t)

/-- The lock that a thread waits for is above those that it holds. -/
theorem Safe.rank_lt {s : Threads κ σ α} (h : Safe rank floor entry inv s) {t : ℕ} {m k : κ}
    {is : List (Instr κ α)} (ht : s.code t = .lock m :: is) (hk : s.owner k = some t) :
  rank k < rank m
  := by
  have hordered := h.ordered t
  rw [ht] at hordered
  apply hordered.1 k hk

/-- Along a chain of waiting threads the ranks increase. -/
theorem Safe.rank_lt_of_chain {s : Threads κ σ α} (h : Safe rank floor entry inv s) {t u : ℕ}
    (hchain : Relation.TransGen (WaitsFor s) t u) {m k : κ} {is js : List (Instr κ α)}
    (ht : s.code t = .lock m :: is) (hu : s.code u = .lock k :: js) :
  rank m < rank k
  := by
  induction hchain generalizing k js with
  | single hw =>
      obtain ⟨m', is', ht', hm⟩ := hw
      obtain ⟨⟨rfl⟩, rfl⟩ := List.cons.inj (ht.symm.trans ht')
      apply h.rank_lt hu hm
  | tail _ hw ih =>
      obtain ⟨m', is', hv, hm⟩ := hw
      apply (ih hv).trans (h.rank_lt hu hm)

/-- No thread waits for itself, nor do threads wait for each other in a cycle. -/
theorem Safe.no_cycle {s : Threads κ σ α} (h : Safe rank floor entry inv s) (t : ℕ) :
  ¬ Relation.TransGen (WaitsFor s) t t
  := by
  intro hchain
  obtain ⟨u, ⟨m, is, ht, -⟩, -⟩ := Relation.TransGen.head'_iff.mp hchain
  apply (h.rank_lt_of_chain hchain ht ht).false

/-- A step of the thread `t` that changes only what `t` holds. -/
theorem Safe.of_step {s s' : Threads κ σ α} (h : Safe rank floor entry inv s) {t : ℕ}
    (hshared : inv s'.shared) (howner : ∀ m u, u ≠ t → (s'.owner m = some u ↔ s.owner m = some u))
    (hcode : ∀ u, u ≠ t → s'.code u = s.code u)
    (ht : Ordered rank floor entry (held s' t) (s'.code t)) :
  Safe rank floor entry inv s'
  := by
  use hshared
  intro u
  by_cases hut : u = t
  · rw [hut]
    apply ht
  · have hheld : held s' u = held s u := by
      ext m
      apply howner m u hut
    rw [hheld, hcode u hut]
    apply h.ordered u

theorem Safe.call (hcall : ∀ a s, callable a s = true → entry a = ∅) {s : Threads κ σ α}
    (h : Safe rank floor entry inv s) {t : ℕ} {a : α} (hcode : s.code t = [])
    (ha : callable a s.shared = true) :
  Safe rank floor entry inv { s with code := Function.update s.code t [.act a] }
  := by
  apply h.of_step (t := t)
  case hshared => apply h.shared
  case howner => exact fun _ _ _ => Iff.rfl
  case hcode => exact fun u hu => Function.update_of_ne hu _ _
  case ht =>
    have hempty : held s t = ∅ := by
      have hordered := h.ordered t
      rwa [hcode] at hordered
    have hentry : entry a = ∅ := hcall a s.shared ha
    change Ordered rank floor entry (held s t) (Function.update s.code t [.act a] t)
    rw [Function.update_self, hempty]
    simp [Ordered, hentry]

variable [DecidableEq κ]

theorem Safe.next (hexpand : Disciplined rank floor entry inv expand) {s s' : Threads κ σ α}
    (h : Safe rank floor entry inv s) {t : ℕ} {i : ι} (hnext : s.next expand t i = some s') :
  Safe rank floor entry inv s'
  := by
  have hordered := h.ordered t
  unfold Threads.next at hnext
  split at hnext
  case h_1 => cases hnext
  case h_2 m is hcode =>
    split at hnext
    case h_2 => cases hnext
    case h_1 hfree =>
      obtain rfl := Option.some.inj hnext
      rw [hcode] at hordered
      apply h.of_step (t := t)
      case hshared => apply h.shared
      case howner =>
        intro k u hu
        by_cases hk : k = m
        · simp [hk, hfree, hu.symm]
        · simp [hk]
      case hcode => exact fun u hu => Function.update_of_ne hu _ _
      case ht =>
        have hheld : held { s with
            owner := Function.update s.owner m (some t)
            code := Function.update s.code t is } t = insert m (held s t) := by
          ext k
          by_cases hk : k = m <;> simp [held, hk]
        rw [hheld]
        simpa using hordered.2
  case h_3 m is hcode =>
    obtain rfl := Option.some.inj hnext
    rw [hcode] at hordered
    have howner : s.owner m = some t := hordered.1
    apply h.of_step (t := t)
    case hshared => apply h.shared
    case howner =>
      intro k u hu
      by_cases hk : k = m
      · simp [hk, howner, hu.symm]
      · simp [hk]
    case hcode => exact fun u hu => Function.update_of_ne hu _ _
    case ht =>
      have hheld : held { s with
          owner := Function.update s.owner m none
          code := Function.update s.code t is } t = held s t \ {m} := by
        ext k
        by_cases hk : k = m <;> simp [held, hk]
      rw [hheld]
      simpa using hordered.2
  case h_4 a is hcode =>
    obtain rfl := Option.some.inj hnext
    rw [hcode] at hordered
    obtain ⟨hentry, hfloor, hrest⟩ := hordered
    apply h.of_step (t := t)
    case hshared => apply hexpand.keeps a i s.shared h.shared
    case howner => exact fun _ _ _ => Iff.rfl
    case hcode => exact fun u hu => Function.update_of_ne hu _ _
    case ht =>
      have happend := (hexpand.ordered a i s.shared h.shared).append
        (hexpand.above a i s.shared h.shared) hfloor (fun k hk hk' => hk'.2 hk) hrest
      rw [Set.union_sdiff_cancel hentry] at happend
      dsimp only
      rw [Function.update_self]
      apply happend

theorem Safe.step (hexpand : Disciplined rank floor entry inv expand)
    (hcall : ∀ a s, callable a s = true → entry a = ∅) {l : Label α ι} {s s' : Threads κ σ α}
    (h : Safe rank floor entry inv s) (hstep : Threads.step callable expand l s = some s') :
  Safe rank floor entry inv s'
  := by
  cases l with
  | call t a =>
      simp only [Threads.step] at hstep
      split at hstep
      case isFalse => cases hstep
      case isTrue hc =>
        obtain rfl := Option.some.inj hstep
        apply h.call hcall hc.1 hc.2
  | next t i => apply h.next hexpand hstep

/-- If all actions respect an order of the locks, then no reachable state has a cycle of
threads that wait for each other. -/
theorem reachable_no_cycle (hexpand : Disciplined rank floor entry inv expand)
    (hcall : ∀ a s, callable a s = true → entry a = ∅) {init : σ → Prop}
    (hinit : ∀ s, init s → inv s) {s : Threads κ σ α}
    (h : (system init callable expand).Reachable s) (t : ℕ) :
  ¬ Relation.TransGen (WaitsFor s) t t
  := by
  have hsafe : Safe rank floor entry inv s := by
    apply h.invariant
    · rintro s ⟨hs, howner, hcode⟩
      constructor
      · apply hinit _ hs
      · intro t
        rw [hcode t, Ordered, Set.eq_empty_iff_forall_notMem]
        simp [held, howner]
    · intro l s s' hs _ hstep
      apply hs.step hexpand hcall hstep
  apply hsafe.no_cycle

end Discipline

end Locks
