import Mathlib.Tactic

/-!
# Tickets

Entries arrive in a queue, are taken out of it one by one, from any place, and are served by
whoever has taken them. Each entry has a ticket, its number in the order of arrival.

`Tickets.Exact` says that every ticket is in exactly one place: in the queue, in the hands of
one worker, or served once. `Tickets.Fifo` says that the entries of a class leave the queue in
the order of their arrival, which holds if no worker that takes an entry of the class passes
over another one.
-/

/-- The entries that have arrived, the tickets in the queue in their order, the ticket in the
hands of each worker, and the tickets that have been served, each with its worker. -/
structure Tickets (ω α : Type*) where
  entries : List α
  waiting : List ℕ
  held : ω → Option ℕ
  served : List (ω × ℕ)

namespace Tickets

variable {ω α : Type*}

/-- The first entries. -/
def new (xs : List α) : Tickets ω α where
  entries := xs
  waiting := List.range xs.length
  held _ := none
  served := []

/-- Entries arrive. -/
def arrive (d : Tickets ω α) (xs : List α) : Tickets ω α :=
  { d with
    entries := d.entries ++ xs
    waiting := d.waiting ++ List.range' d.entries.length xs.length }

/-- A worker takes the entry at the index `i` of the queue. -/
def take [DecidableEq ω] (d : Tickets ω α) (w : ω) (i : ℕ) : Tickets ω α :=
  match d.waiting[i]? with
  | none => d
  | some n =>
      { d with waiting := d.waiting.eraseIdx i, held := Function.update d.held w (some n) }

/-- A worker serves the entry that it has taken. -/
def serve [DecidableEq ω] (d : Tickets ω α) (w : ω) : Tickets ω α :=
  match d.held w with
  | none => d
  | some n =>
      { d with held := Function.update d.held w none, served := d.served ++ [(w, n)] }

@[simp]
theorem entries_arrive (d : Tickets ω α) (xs : List α) :
  (d.arrive xs).entries = d.entries ++ xs
  := rfl

@[simp]
theorem held_arrive (d : Tickets ω α) (xs : List α) :
  (d.arrive xs).held = d.held
  := rfl

@[simp]
theorem served_arrive (d : Tickets ω α) (xs : List α) :
  (d.arrive xs).served = d.served
  := rfl

theorem take_eq [DecidableEq ω] {d : Tickets ω α} {i n : ℕ} (h : d.waiting[i]? = some n) (w : ω) :
  d.take w i =
    { d with waiting := d.waiting.eraseIdx i, held := Function.update d.held w (some n) }
  := by
  simp [take, h]

theorem serve_eq [DecidableEq ω] {d : Tickets ω α} {w : ω} {n : ℕ} (h : d.held w = some n) :
  d.serve w =
    { d with held := Function.update d.held w none, served := d.served ++ [(w, n)] }
  := by
  simp [serve, h]

theorem serve_of_none [DecidableEq ω] {d : Tickets ω α} {w : ω} (h : d.held w = none) :
  d.serve w = d
  := by
  simp [serve, h]

/-! ### Places -/

/-- Where a ticket can be. -/
inductive Place (ω : Type*) where
  | queue
  | hands (w : ω)
  | served (w : ω)

/-- The ticket is at the place. -/
def At (d : Tickets ω α) (n : ℕ) : Place ω → Prop
  | .queue => n ∈ d.waiting
  | .hands w => d.held w = some n
  | .served w => (w, n) ∈ d.served

/-- The queue is in the order of arrival, no ticket is served twice, and every ticket is in
exactly one place. -/
structure Exact (d : Tickets ω α) : Prop where
  sorted : d.waiting.Pairwise (· < ·)
  once : (d.served.map Prod.snd).Nodup
  issued : ∀ n p, d.At n p → n < d.entries.length
  place : ∀ n < d.entries.length, ∃! p, d.At n p

theorem exact_new (xs : List α) :
  (new xs : Tickets ω α).Exact
  := by
  have hplace : ∀ n p, (new xs : Tickets ω α).At n p ↔ p = .queue ∧ n < xs.length := by
    intro n p
    cases p <;> simp [At, new]
  constructor
  case sorted => apply List.pairwise_lt_range
  case once => exact List.nodup_nil
  case issued =>
    intro n p hp
    apply ((hplace n p).mp hp).2
  case place =>
    intro n hn
    use .queue
    exact ⟨(hplace n .queue).mpr ⟨rfl, hn⟩, fun p hp => ((hplace n p).mp hp).1⟩

theorem Exact.arrive {d : Tickets ω α} (h : d.Exact) (xs : List α) :
  (d.arrive xs).Exact
  := by
  -- the places of the tickets that were there, and of the new ones
  have hold : ∀ n < d.entries.length, ∀ p, (d.arrive xs).At n p ↔ d.At n p := by
    intro n hn p
    cases p with
    | queue =>
        have hnew : n ∉ List.range' d.entries.length xs.length := by
          simp only [List.mem_range'_1]
          omega
        simp [At, Tickets.arrive, hnew]
    | hands w => exact Iff.rfl
    | served w => exact Iff.rfl
  have hnew : ∀ n, d.entries.length ≤ n → ∀ p, (d.arrive xs).At n p ↔
      p = .queue ∧ n < d.entries.length + xs.length := by
    intro n hn p
    have hnone : ∀ p, ¬ d.At n p := fun p hp => (h.issued n p hp).not_ge hn
    cases p with
    | queue =>
        have hqueue : n ∉ d.waiting := hnone .queue
        simp [At, Tickets.arrive, hqueue, List.mem_range'_1, hn]
    | hands w => simpa [At, Tickets.arrive] using hnone (.hands w)
    | served w => simpa [At, Tickets.arrive] using hnone (.served w)
  constructor
  case sorted =>
    simp only [Tickets.arrive, List.pairwise_append]
    refine ⟨h.sorted, List.pairwise_lt_range', fun m hm n hn => ?_⟩
    apply (h.issued m .queue hm).trans_le (List.mem_range'_1.mp hn).1
  case once => apply h.once
  case issued =>
    intro n p hp
    simp only [Tickets.arrive, List.length_append]
    by_cases hn : n < d.entries.length
    · omega
    · apply ((hnew n (not_lt.mp hn) p).mp hp).2
  case place =>
    intro n hn
    simp only [Tickets.arrive, List.length_append] at hn
    by_cases hlt : n < d.entries.length
    · simpa only [hold n hlt] using h.place n hlt
    · simp only [hnew n (not_lt.mp hlt)]
      use .queue
      exact ⟨⟨rfl, hn⟩, fun _ hp => hp.1⟩

/-- One ticket moves to another place. -/
theorem Exact.move {d d' : Tickets ω α} (h : d.Exact) {n₀ : ℕ} {p₀ : Place ω}
    (hfrom : d.At n₀ p₀) (q₀ : Place ω) (hentries : d'.entries = d.entries)
    (hsorted : d'.waiting.Pairwise (· < ·)) (honce : (d'.served.map Prod.snd).Nodup)
    (hothers : ∀ n ≠ n₀, ∀ p, d'.At n p ↔ d.At n p) (hto : ∀ p, d'.At n₀ p ↔ p = q₀) :
  d'.Exact
  := by
  constructor
  case sorted => apply hsorted
  case once => apply honce
  case issued =>
    intro n p hp
    rw [hentries]
    by_cases hn : n = n₀
    · rw [hn]
      apply h.issued n₀ p₀ hfrom
    · apply h.issued n p ((hothers n hn p).mp hp)
  case place =>
    intro n hn
    rw [hentries] at hn
    by_cases hn₀ : n = n₀
    · subst hn₀
      use q₀
      exact ⟨(hto q₀).mpr rfl, fun p hp => (hto p).mp hp⟩
    · simpa only [hothers n hn₀] using h.place n hn

/-- A ticket is in no second place. -/
theorem Exact.unique {d : Tickets ω α} (h : d.Exact) {n : ℕ} {p q : Place ω} (hp : d.At n p)
    (hq : d.At n q) :
  p = q
  := (h.place n (h.issued n p hp)).unique hp hq

/-- If nothing waits and no worker has an entry in its hands, every ticket has been served
once. -/
theorem Exact.served_perm {d : Tickets ω α} (h : d.Exact) (hwaiting : d.waiting = [])
    (hheld : ∀ w, d.held w = none) :
  (d.served.map Prod.snd).Perm (List.range d.entries.length)
  := by
  rw [List.perm_ext_iff_of_nodup h.once List.nodup_range]
  intro n
  rw [List.mem_range]
  constructor
  · intro hn
    obtain ⟨⟨w, n⟩, hmem, rfl⟩ := List.mem_map.mp hn
    apply h.issued n (.served w) hmem
  · intro hn
    obtain ⟨p, hp, -⟩ := h.place n hn
    cases p with
    | queue =>
        simp only [At, hwaiting] at hp
        cases hp
    | hands w =>
        simp only [At, hheld w] at hp
        cases hp
    | served w => exact List.mem_map_of_mem hp

/-- What is left of the queue when an entry has been taken. -/
theorem Exact.mem_eraseIdx {d : Tickets ω α} (h : d.Exact) {i n : ℕ} (hi : d.waiting[i]? = some n)
    (m : ℕ) :
  m ∈ d.waiting.eraseIdx i ↔ m ∈ d.waiting ∧ m ≠ n
  := by
  have hnodup : d.waiting.Nodup := h.sorted.imp ne_of_lt
  obtain ⟨hlt, rfl⟩ := List.getElem?_eq_some_iff.mp hi
  rw [← hnodup.erase_getElem i hlt, hnodup.mem_erase_iff, and_comm]

variable [DecidableEq ω]

theorem Exact.take {d : Tickets ω α} (h : d.Exact) {w : ω} (hw : d.held w = none) (i : ℕ) :
  (d.take w i).Exact
  := by
  unfold Tickets.take
  split
  case h_1 => apply h
  case h_2 n hi =>
    have hn : d.At n .queue := List.mem_of_getElem? hi
    apply h.move hn (.hands w)
    case hentries => rfl
    case hsorted => exact h.sorted.sublist (List.eraseIdx_sublist ..)
    case honce => exact h.once
    case hothers =>
      intro m hm p
      cases p with
      | queue => simp [At, h.mem_eraseIdx hi, hm]
      | hands w' =>
          by_cases hw' : w' = w
          · subst hw'
            simp [At, hw, hm.symm]
          · simp [At, hw']
      | served w' => exact Iff.rfl
    case hto =>
      intro p
      have hplace : ∀ p, p ≠ .queue → ¬ d.At n p := fun p hp hat => hp (h.unique hat hn)
      cases p with
      | queue => simp [At, h.mem_eraseIdx hi]
      | hands w' =>
          by_cases hw' : w' = w
          · simp [At, hw']
          · have hnone := hplace (.hands w') nofun
            simpa [At, hw'] using hnone
      | served w' =>
          have hnone := hplace (.served w') nofun
          simpa [At] using hnone

theorem Exact.serve {d : Tickets ω α} (h : d.Exact) (w : ω) :
  (d.serve w).Exact
  := by
  unfold Tickets.serve
  split
  case h_1 => apply h
  case h_2 n hw =>
    have hn : d.At n (.hands w) := hw
    have hplace : ∀ p, p ≠ .hands w → ¬ d.At n p := fun p hp hat => hp (h.unique hat hn)
    apply h.move hn (.served w)
    case hentries => rfl
    case hsorted => exact h.sorted
    case honce =>
      rw [List.map_append, List.nodup_append]
      refine ⟨h.once, List.nodup_singleton n, fun m hm m' hm' heq => ?_⟩
      obtain ⟨⟨w', k⟩, hmem, hk⟩ := List.mem_map.mp hm
      have hkn : k = n := hk.trans (heq.trans (List.mem_singleton.mp hm'))
      rw [hkn] at hmem
      apply hplace (.served w') nofun hmem
    case hothers =>
      intro m hm p
      cases p with
      | queue => exact Iff.rfl
      | hands w' =>
          by_cases hw' : w' = w
          · subst hw'
            simp [At, hw, hm.symm]
          · simp [At, hw']
      | served w' => simp [At, hm]
    case hto =>
      intro p
      cases p with
      | queue =>
          have hnone := hplace .queue nofun
          simpa [At] using hnone
      | hands w' =>
          by_cases hw' : w' = w
          · simp [At, hw']
          · have hnone := hplace (.hands w') (by simpa using hw')
            simpa [At, hw'] using hnone
      | served w' =>
          have hnone := hplace (.served w') nofun
          have hmem : (w', n) ∉ d.served := hnone
          simp [At, hmem]

omit [DecidableEq ω]

/-! ### The queue -/

/-- The tickets in the queue are those of the entries of `q`. -/
def Queues (d : Tickets ω α) (q : List α) : Prop :=
  q.map some = d.waiting.map fun n => d.entries[n]?

theorem queues_new (xs : List α) :
  (new xs : Tickets ω α).Queues xs
  := by
  apply List.ext_getElem?
  intro i
  by_cases hi : i < xs.length
  · simp [new, hi]
  · simp [new, hi]

theorem Queues.arrive {d : Tickets ω α} {q : List α} (h : d.Queues q) (hexact : d.Exact)
    (xs : List α) :
  (d.arrive xs).Queues (q ++ xs)
  := by
  have hold : (d.waiting.map fun n => (d.entries ++ xs)[n]?) =
      d.waiting.map fun n => d.entries[n]? := by
    apply List.map_congr_left
    intro n hn
    apply List.getElem?_append_left (hexact.issued n .queue hn)
  have hnew : ((List.range' d.entries.length xs.length).map fun n => (d.entries ++ xs)[n]?) =
      xs.map some := by
    apply List.ext_getElem?
    intro i
    by_cases hi : i < xs.length
    · simp [hi]
    · simp [hi]
  rw [Queues, Tickets.arrive, List.map_append, List.map_append, hold, hnew, h]

theorem Queues.length {d : Tickets ω α} {q : List α} (h : d.Queues q) :
  d.waiting.length = q.length
  := by
  have hlength := congrArg List.length h
  simpa using hlength.symm

theorem Queues.getElem? {d : Tickets ω α} {q : List α} (h : d.Queues q) {i : ℕ} {x : α}
    (hx : q[i]? = some x) :
  ∃ n, d.waiting[i]? = some n ∧ d.entries[n]? = some x
  := by
  have hi := congrArg (fun l => l[i]?) h
  simp only [List.getElem?_map, hx, Option.map_some] at hi
  obtain ⟨n, hn, hentry⟩ := Option.map_eq_some_iff.mp hi.symm
  exact ⟨n, hn, hentry⟩

theorem Queues.getElem?_of_waiting {d : Tickets ω α} {q : List α} (h : d.Queues q) {i n : ℕ}
    {x : α} (hn : d.waiting[i]? = some n) (hx : d.entries[n]? = some x) :
  q[i]? = some x
  := by
  have hlt : i < q.length := by
    rw [← h.length]
    exact (List.getElem?_eq_some_iff.mp hn).1
  obtain ⟨m, hm, hentry⟩ := h.getElem? (List.getElem?_eq_getElem hlt)
  obtain rfl := Option.some.inj (hn.symm.trans hm)
  rw [List.getElem?_eq_getElem hlt, ← hentry, hx]

/-! ### The order of arrival -/

/-- The entries of the class `P` leave the queue in the order of their arrival. -/
def Fifo (P : α → Prop) (d : Tickets ω α) : Prop :=
  ∀ m n x y, m < n → d.entries[m]? = some x → d.entries[n]? = some y → P x → P y →
    m ∈ d.waiting → n ∈ d.waiting

variable {P : α → Prop}

theorem fifo_new (xs : List α) :
  (new xs : Tickets ω α).Fifo P
  := by
  intro m n x y _ _ hy _ _ _
  obtain ⟨hn, -⟩ := List.getElem?_eq_some_iff.mp hy
  simpa [new] using hn

theorem Fifo.arrive {d : Tickets ω α} (h : d.Fifo P) (xs : List α) :
  (d.arrive xs).Fifo P
  := by
  intro m n x y hlt hx hy hPx hPy hm
  obtain ⟨hn, -⟩ := List.getElem?_eq_some_iff.mp hy
  simp only [Tickets.arrive, List.length_append] at hx hy hm hn ⊢
  by_cases hlast : n < d.entries.length
  · rw [List.getElem?_append_left (hlt.trans hlast)] at hx
    rw [List.getElem?_append_left hlast] at hy
    apply List.mem_append_left
    apply h m n x y hlt hx hy hPx hPy
    apply (List.mem_append.mp hm).resolve_right
    simp only [List.mem_range'_1]
    omega
  · apply List.mem_append_right
    rw [List.mem_range'_1]
    omega

variable [DecidableEq ω]

/-- A worker takes an entry and passes over no other entry of its class. -/
theorem Fifo.take {d : Tickets ω α} (h : d.Fifo P) (hexact : d.Exact) (w : ω) {i : ℕ}
    (hpassed : ∀ n y, d.waiting[i]? = some n → d.entries[n]? = some y → P y →
      ∀ j < i, ∀ m x, d.waiting[j]? = some m → d.entries[m]? = some x → ¬ P x) :
  (d.take w i).Fifo P
  := by
  unfold Tickets.take
  split
  case h_1 => apply h
  case h_2 k hi =>
    intro m n x y hlt hx hy hPx hPy hm
    simp only [hexact.mem_eraseIdx hi] at hm ⊢
    use h m n x y hlt hx hy hPx hPy hm.1
    rintro rfl
    obtain ⟨j, hj⟩ := List.mem_iff_getElem?.mp hm.1
    -- the queue is sorted, so that `m` stands in front of what is taken
    obtain ⟨hjlt, hjm⟩ := List.getElem?_eq_some_iff.mp hj
    obtain ⟨hilt, hin⟩ := List.getElem?_eq_some_iff.mp hi
    have hji : j < i := by
      by_contra hij
      obtain heq | hlt' := (not_lt.mp hij).eq_or_lt
      · subst heq
        omega
      · have hsorted := List.pairwise_iff_getElem.mp hexact.sorted i j hilt hjlt hlt'
        omega
    apply hpassed n y hi hy hPy j hji m x hj hx hPx

theorem Fifo.serve {d : Tickets ω α} (h : d.Fifo P) (w : ω) :
  (d.serve w).Fifo P
  := by
  unfold Tickets.serve
  split
  · apply h
  · apply h

theorem Queues.take {d : Tickets ω α} {q : List α} (h : d.Queues q) (w : ω) {i : ℕ} {x : α}
    (hx : q[i]? = some x) :
  (d.take w i).Queues (q.eraseIdx i)
  := by
  obtain ⟨n, hn, -⟩ := h.getElem? hx
  have hmap := congrArg (fun l => l.eraseIdx i) h
  simpa [Queues, Tickets.take, hn, List.eraseIdx_map] using hmap

theorem Queues.serve {d : Tickets ω α} {q : List α} (h : d.Queues q) (w : ω) :
  (d.serve w).Queues q
  := by
  unfold Tickets.serve
  split
  · apply h
  · apply h

end Tickets
