import Mathlib.Tactic

/-!
# Counted pointers

An object is shared by the pointers to it, each of which is at a place. When the pointers
change, the objects that lose their last pointer are destroyed.

`Pointers.Exact` says that every object that has been made is owned by a pointer or has been
destroyed once, and `Pointers.Exact.update` that this stays so as long as new pointers lead to
objects that are owned or new.
-/

/-- The pointers, each with its place, and the objects that have been destroyed, in order. -/
structure Pointers (π ω : Type*) where
  held : List (π × ω)
  freed : List ω

namespace Pointers

variable {π ω : Type*}

/-- No pointers and no objects. -/
def new : Pointers π ω where
  held := []
  freed := []

/-- A pointer leads to the object. -/
def Owned (P : Pointers π ω) (o : ω) : Prop :=
  ∃ p, (p, o) ∈ P.held

/-- Every object that has been made is owned or has been destroyed, and none is destroyed
twice. -/
structure Exact (made : ω → Prop) (P : Pointers π ω) : Prop where
  once : P.freed.Nodup
  held : ∀ o, P.Owned o → made o
  freed : ∀ o ∈ P.freed, made o
  place : ∀ o, made o → (P.Owned o ↔ o ∉ P.freed)

theorem exact_new :
  (new : Pointers π ω).Exact fun _ => False
  := by
  constructor <;> simp [new, Owned]

variable {made made' : ω → Prop} {P : Pointers π ω}

/-- A pointer does not dangle. -/
theorem Exact.notMem_freed (h : P.Exact made) {p : π} {o : ω} (ho : (p, o) ∈ P.held) :
  o ∉ P.freed
  := (h.place o (h.held o ⟨p, ho⟩)).mp ⟨p, ho⟩

variable [DecidableEq ω]

/-- The objects that lose their last pointer when `held` are the pointers left. -/
def lost (P : Pointers π ω) (held : List (π × ω)) : List ω :=
  (P.held.map Prod.snd).dedup.filter fun o => ∀ p ∈ held, p.2 ≠ o

/-- The pointers become `held`. -/
def update (P : Pointers π ω) (held : List (π × ω)) : Pointers π ω where
  held := held
  freed := P.freed ++ P.lost held

@[simp]
theorem held_update (P : Pointers π ω) (held : List (π × ω)) :
  (P.update held).held = held
  := rfl

theorem mem_lost {held : List (π × ω)} {o : ω} :
  o ∈ P.lost held ↔ P.Owned o ∧ ∀ p, (p, o) ∉ held
  := by
  simp only [lost, List.mem_filter, List.mem_dedup, List.mem_map, Prod.exists, exists_eq_right,
    decide_eq_true_eq, Owned]
  apply and_congr_right
  intro _
  constructor
  · exact fun h p hp => h _ hp rfl
  · rintro h ⟨p, o'⟩ hp rfl
    apply h p hp

/-- The pointers to an object decide whether it stays. -/
theorem notMem_lost {held : List (π × ω)} {p : π} {o : ω} (h : (p, o) ∈ held) :
  o ∉ P.lost held
  := fun ho => (mem_lost.mp ho).2 p h

/-- New pointers lead to objects that are owned or new, and new objects have a pointer. -/
theorem Exact.update (h : P.Exact made) {held : List (π × ω)}
    (hmade : ∀ o, made' o ↔ made o ∨ ∃ p, (p, o) ∈ held)
    (hheld : ∀ p o, (p, o) ∈ held → P.Owned o ∨ ¬ made o) :
  (P.update held).Exact made'
  := by
  have hnotFreed : ∀ p o, (p, o) ∈ held → o ∉ P.freed := by
    intro p o ho hfreed
    have hmade := h.freed o hfreed
    apply (h.place o hmade).mp ((hheld p o ho).resolve_right (not_not.mpr hmade)) hfreed
  constructor
  case once =>
    apply List.Nodup.append h.once
    · apply (List.nodup_dedup _).filter
    · intro o hfreed hlost
      have howned := (mem_lost.mp hlost).1
      apply (h.place o (h.held o howned)).mp howned hfreed
  case held =>
    rintro o ⟨p, ho⟩
    exact (hmade o).mpr (.inr ⟨p, ho⟩)
  case freed =>
    intro o ho
    obtain ho | ho := List.mem_append.mp ho
    · exact (hmade o).mpr (.inl (h.freed o ho))
    · exact (hmade o).mpr (.inl (h.held o (mem_lost.mp ho).1))
  case place =>
    intro o ho
    constructor
    · rintro ⟨p, hp⟩ hfreed
      obtain hfreed | hlost := List.mem_append.mp hfreed
      · apply hnotFreed p o hp hfreed
      · apply notMem_lost hp hlost
    · intro hfreed
      obtain ho | ⟨p, hp⟩ := (hmade o).mp ho
      · have howned : P.Owned o := (h.place o ho).mpr fun hf => hfreed (List.mem_append_left _ hf)
        by_contra hnot
        apply hfreed (List.mem_append_right _ (mem_lost.mpr ⟨howned, not_exists.mp hnot⟩))
      · exact ⟨p, hp⟩

/-- What has been made stays so. -/
theorem Exact.made_of_update (h : P.Exact made) {held : List (π × ω)}
    (hheld : (P.update held).Exact made') {o : ω} (ho : made o) :
  made' o
  := by
  by_cases howned : P.Owned o
  · by_cases hkept : (P.update held).Owned o
    · exact hheld.held o hkept
    · apply hheld.freed o (List.mem_append_right _ _)
      exact mem_lost.mpr ⟨howned, not_exists.mp hkept⟩
  · apply hheld.freed o (List.mem_append_left _ _)
    exact not_not.mp fun hf => howned ((h.place o ho).mpr hf)

/-- One more pointer to an object that was owned before. -/
theorem Exact.add (h : P.Exact made) {held : List (π × ω)} (hheld : (P.update held).Exact made')
    {o : ω} (ho : P.Owned o) (ho' : made' o) (p : π) :
  (P.update ((p, o) :: held)).Exact made'
  := by
  apply h.update
  · intro o'
    constructor
    · intro hmade
      by_cases howned : (P.update held).Owned o'
      · obtain ⟨q, hq⟩ := howned
        exact .inr ⟨q, List.mem_cons_of_mem _ hq⟩
      · have hfreed : o' ∈ (P.update held).freed :=
          not_not.mp fun hf => howned ((hheld.place o' hmade).mpr hf)
        obtain hfreed | hlost := List.mem_append.mp hfreed
        · exact .inl (h.freed o' hfreed)
        · exact .inl (h.held o' (mem_lost.mp hlost).1)
    · rintro (hmade | ⟨q, hq⟩)
      · exact h.made_of_update hheld hmade
      · obtain heq | hq := List.mem_cons.mp hq
        · rwa [(Prod.mk.inj heq).2]
        · exact hheld.held o' ⟨q, hq⟩
  · intro q o' hq
    obtain heq | hq := List.mem_cons.mp hq
    · rw [(Prod.mk.inj heq).2]
      exact .inl ho
    · by_contra hnot
      obtain ⟨hnot, hmade⟩ := not_or.mp hnot
      have hfreed : o' ∈ P.freed :=
        not_not.mp fun hf => hnot ((h.place o' (not_not.mp hmade)).mpr hf)
      exact hheld.notMem_freed hq (List.mem_append_left _ hfreed)

end Pointers
