import Mathlib.Tactic
import Mathlib.Data.List.Perm.Basic

/-!
# Round-robin machines

A round-robin machine serves the task at the head of a queue for one turn. In its turn a
task spawns tasks, which go to the end of the queue, and then follows, at the very end,
what is left of the task itself. `Serves turn q os` says that the machine started on the
queue `q` serves the tasks `os`, in this order, and then finds its queue empty.

A machine whose tasks have finite work, measured by a `Work`, serves every queue to the
end, in exactly one order. In this order every turn of every task occurs exactly once
(`Serves.perm`), and the turns of each task occur in their own order (`Serves.sublist`).
-/

namespace RoundRobin

variable {τ : Type*}

/-- What a turn of a task leaves to do. -/
structure Turn (τ : Type*) where
  spawned : List τ
  rest : Option τ

/-- The queue behind a turn of a task taken from the head of `q`. -/
def Turn.push (t : Turn τ) (q : List τ) : List τ :=
  q ++ t.spawned ++ t.rest.toList

/-- The machine on the queue `q` serves the tasks `os` and then has an empty queue. -/
inductive Serves (turn : τ → Turn τ) : List τ → List τ → Prop where
  | nil : Serves turn [] []
  | cons {t : τ} {q os : List τ} (h : Serves turn ((turn t).push q) os) :
      Serves turn (t :: q) (t :: os)

/-- A function of tasks that adds up over the turns: its value at a task is made of a value
for the turn itself and of the values of all tasks the turn leaves to do. -/
structure Unfolds {σ : Type*} (turn : τ → Turn τ) (emit : τ → σ) (all : τ → List σ) :
    Prop where
  eq : ∀ t, all t = emit t :: ((turn t).spawned.flatMap all ++ (turn t).rest.toList.flatMap all)

/-- What the tasks emit in their turns is, up to the order, what they unfold to. -/
theorem Serves.perm {σ : Type*} {turn : τ → Turn τ} {emit : τ → σ} {all : τ → List σ}
    (hall : Unfolds turn emit all) {q os : List τ} (h : Serves turn q os) :
  (os.map emit).Perm (q.flatMap all)
  := by
  induction h with
  | nil => simp
  | @cons t q os _ ih =>
      rw [List.map_cons, List.flatMap_cons, hall.eq t, List.cons_append]
      apply List.Perm.cons
      apply ih.trans
      rw [Turn.push, List.flatMap_append, List.flatMap_append, List.append_assoc]
      apply List.perm_append_comm

/-- The turns of a task that the machine serves are served in their order: `own t` lists
the turns of `t` from the present one on. -/
theorem Serves.sublist {turn : τ → Turn τ} {own : τ → List τ}
    (hown : ∀ t, own t = t :: (turn t).rest.toList.flatMap own) {q os : List τ}
    (h : Serves turn q os) {t : τ} (ht : t ∈ q) :
  (own t).Sublist os
  := by
  induction h generalizing t with
  | nil => simp at ht
  | @cons u q os _ ih =>
      obtain rfl | ht := List.mem_cons.mp ht
      · rw [hown t]
        apply List.Sublist.cons_cons
        cases hrest : (turn t).rest with
        | none => simp
        | some r =>
            have hr : r ∈ (turn t).push q := by simp [Turn.push, hrest]
            simpa [hrest] using ih hr
      · apply List.Sublist.cons
        apply ih
        simp [Turn.push, ht]

/-- A task spawned by a served task waits in the queue later on. -/
theorem Serves.sublist_spawned {turn : τ → Turn τ} {own : τ → List τ}
    (hown : ∀ t, own t = t :: (turn t).rest.toList.flatMap own) {q os : List τ}
    (h : Serves turn q os) {t u : τ} (ht : t ∈ os) (hu : u ∈ (turn t).spawned) :
  (own u).Sublist os
  := by
  induction h with
  | nil => simp at ht
  | @cons v q os h ih =>
      apply List.Sublist.cons
      obtain rfl | ht := List.mem_cons.mp ht
      · apply h.sublist hown
        simp [Turn.push, hu]
      · apply ih ht

/-! ### Finite work -/

/-- The number of turns a task takes, together with the tasks it spawns. -/
structure Work (turn : τ → Turn τ) where
  work : τ → ℕ
  work_eq : ∀ t, work t = ((turn t).spawned.map work).sum + ((turn t).rest.toList.map work).sum + 1

namespace Work

variable {turn : τ → Turn τ} (w : Work turn)

/-- The work in a queue. -/
def total (q : List τ) : ℕ := (q.map w.work).sum

/-- A turn does one unit of the work. -/
theorem total_push (t : τ) (q : List τ) :
  w.total (t :: q) = w.total ((turn t).push q) + 1
  := by
  simp only [total, Turn.push, List.map_cons, List.map_append, List.sum_cons,
    List.sum_append, w.work_eq t]
  omega

/-- With finite work every queue is served to the end. -/
theorem serves (q : List τ) :
  ∃ os, Serves turn q os ∧ os.length = w.total q
  := by
  induction hn : w.total q generalizing q with
  | zero =>
      cases q with
      | nil =>
          use []
          exact ⟨.nil, rfl⟩
      | cons t q =>
          rw [w.total_push] at hn
          omega
  | succ n ih =>
      cases q with
      | nil => simp [total] at hn
      | cons t q =>
          rw [w.total_push] at hn
          obtain ⟨os, hos, hlen⟩ := ih ((turn t).push q) (by omega)
          use t :: os
          exact ⟨.cons hos, by simp [hlen]⟩

end Work

end RoundRobin
