import Mathlib.Tactic

/-!
# Ordered sets

`OrderedSet key` is a set of elements that are compared by a key, as a list with increasing
keys. An element is found by its key, and an insertion keeps the element that is already
there. Two sets are compared by a comparison of their elements, which need not be
equality.
-/

variable {α β : Type*} [LinearOrder β]

/-- A finite set ordered by `key`. -/
structure OrderedSet (key : α → β) where
  toList : List α
  sorted : toList.Pairwise fun x y => key x < key y

namespace OrderedSet

variable {key : α → β}

instance : Membership α (OrderedSet key) where
  mem s x := x ∈ s.toList

@[ext]
theorem ext {s t : OrderedSet key} (h : s.toList = t.toList) :
  s = t
  := by
  cases s
  cases t
  simpa using h

/-- The empty set. -/
def empty (key : α → β) : OrderedSet key := ⟨[], List.Pairwise.nil⟩

/-! ### Search -/

/-- The element with key `k`. -/
def find? (s : OrderedSet key) (k : β) : Option α :=
  s.toList.find? fun x => key x = k

/-- Elements with equal keys are equal. -/
theorem eq_of_key_eq (s : OrderedSet key) {x y : α} (hx : x ∈ s) (hy : y ∈ s)
    (h : key x = key y) :
  x = y
  := by
  have hnodup : (s.toList.map key).Nodup :=
    List.pairwise_map.mpr (s.sorted.imp ne_of_lt)
  apply List.inj_on_of_nodup_map hnodup hx hy h

theorem find?_eq_some {s : OrderedSet key} {k : β} {x : α} :
  s.find? k = some x ↔ x ∈ s ∧ key x = k
  := by
  constructor
  · intro h
    exact ⟨List.mem_of_find?_eq_some h, by simpa using List.find?_some h⟩
  · rintro ⟨hx, rfl⟩
    cases hfind : s.find? (key x) with
    | none =>
        have hne := List.find?_eq_none.mp hfind x hx
        simp at hne
    | some y =>
        have hy : y ∈ s := List.mem_of_find?_eq_some hfind
        have hkey : key y = key x := by simpa using List.find?_some hfind
        rw [s.eq_of_key_eq hy hx hkey]

theorem find?_eq_none {s : OrderedSet key} {k : β} :
  s.find? k = none ↔ ∀ x ∈ s, key x ≠ k
  := by
  simp [find?, Membership.mem]

theorem find?_key {s : OrderedSet key} {x : α} (h : x ∈ s) :
  s.find? (key x) = some x
  := find?_eq_some.mpr ⟨h, rfl⟩

/-! ### Insertion -/

/-- Inserts into a list with increasing keys, unless an element with the same key is
there. -/
def insertList (key : α → β) (x : α) : List α → List α
  | [] => [x]
  | y :: l =>
      if key x < key y then x :: y :: l
      else if key y < key x then y :: insertList key x l
      else y :: l

theorem mem_insertList {x z : α} {l : List α} (h : z ∈ insertList key x l) :
  z = x ∨ z ∈ l
  := by
  induction l with
  | nil => simpa [insertList] using h
  | cons y l ih =>
      simp only [insertList] at h
      split at h
      · simpa using h
      · split at h
        · obtain rfl | h := List.mem_cons.mp h
          · exact .inr List.mem_cons_self
          · apply (ih h).imp_right (List.mem_cons_of_mem y)
        · exact .inr h

theorem insertList_sorted (x : α) {l : List α} (h : l.Pairwise fun x y => key x < key y) :
  (insertList key x l).Pairwise fun x y => key x < key y
  := by
  induction l with
  | nil => simp [insertList]
  | cons y l ih =>
      obtain ⟨hy, hl⟩ := List.pairwise_cons.mp h
      simp only [insertList]
      split
      case isTrue hxy =>
        refine List.pairwise_cons.mpr ⟨fun z hz => ?_, h⟩
        obtain rfl | hz := List.mem_cons.mp hz
        · apply hxy
        · apply hxy.trans (hy z hz)
      case isFalse =>
        split
        case isTrue hyx =>
          refine List.pairwise_cons.mpr ⟨fun z hz => ?_, ih hl⟩
          obtain rfl | hz := mem_insertList hz
          · apply hyx
          · apply hy z hz
        case isFalse => apply h

/-- Inserts an element, unless one with the same key is there. -/
def insert (s : OrderedSet key) (x : α) : OrderedSet key :=
  ⟨insertList key x s.toList, insertList_sorted x s.sorted⟩

theorem mem_insertList_self (hkey : Function.Injective key) (x : α) (l : List α) :
  x ∈ insertList key x l
  := by
  induction l with
  | nil => simp [insertList]
  | cons y l ih =>
      simp only [insertList]
      split
      case isTrue => exact List.mem_cons_self
      case isFalse hxy =>
        split
        case isTrue => exact List.mem_cons_of_mem y ih
        case isFalse hyx =>
          have heq : key x = key y := le_antisymm (not_lt.mp hyx) (not_lt.mp hxy)
          simp [hkey heq]

theorem mem_insertList_of_mem {x z : α} {l : List α} (h : z ∈ l) :
  z ∈ insertList key x l
  := by
  induction l with
  | nil => cases h
  | cons y l ih =>
      simp only [insertList]
      split
      · exact List.mem_cons_of_mem x h
      · split
        · obtain rfl | h := List.mem_cons.mp h
          · exact List.mem_cons_self
          · exact List.mem_cons_of_mem y (ih h)
        · exact h

/-- If the key determines the element, the inserted one is there in any case. -/
theorem mem_insert (hkey : Function.Injective key) (s : OrderedSet key) {x z : α} :
  z ∈ s.insert x ↔ z = x ∨ z ∈ s
  := by
  constructor
  · exact mem_insertList
  · rintro (rfl | h)
    · apply mem_insertList_self hkey
    · apply mem_insertList_of_mem h

/-- An element behind all others is appended. -/
theorem insertList_of_lt {x : α} {l : List α} (h : ∀ y ∈ l, key y < key x) :
  insertList key x l = l ++ [x]
  := by
  induction l with
  | nil => rfl
  | cons y l ih =>
      obtain ⟨hy, hl⟩ := List.forall_mem_cons.mp h
      simp [insertList, hy, hy.not_gt, ih hl]

/-- Inserting the elements of a list with increasing keys one after the other. -/
theorem foldl_insertList {l l' : List α} (h : (l ++ l').Pairwise fun x y => key x < key y) :
  l'.foldl (fun s x => insertList key x s) l = l ++ l'
  := by
  induction l' generalizing l with
  | nil => simp
  | cons x l' ih =>
      have hx : ∀ y ∈ l, key y < key x := fun y hy =>
        (List.pairwise_append.mp h).2.2 y hy x List.mem_cons_self
      rw [List.foldl_cons, insertList_of_lt hx, ih (by simpa using h)]
      simp

theorem toList_foldl_insert (s : OrderedSet key) (l : List α) :
  (l.foldl insert s).toList = l.foldl (fun s x => insertList key x s) s.toList
  := by
  induction l generalizing s with
  | nil => rfl
  | cons x l ih => apply ih (s.insert x)

/-- Inserting the elements of a list with increasing keys into the empty set. -/
theorem toList_foldl_insert_empty {l : List α} (h : l.Pairwise fun x y => key x < key y) :
  (l.foldl insert (empty key)).toList = l
  := by
  rw [toList_foldl_insert]
  apply foldl_insertList h

theorem mem_foldl_insert {s : OrderedSet key} {l : List α} {x : α} (h : x ∈ l.foldl insert s) :
  x ∈ s ∨ x ∈ l
  := by
  induction l generalizing s with
  | nil => exact .inl h
  | cons y l ih =>
      obtain h | h := ih h
      · obtain rfl | h := mem_insertList h
        · exact .inr List.mem_cons_self
        · exact .inl h
      · exact .inr (List.mem_cons_of_mem y h)

/-! ### Sets of keys -/

/-- The elements for a set of keys. -/
def ofKeys (f : β → α) (hf : ∀ k, key (f k) = k) (keys : OrderedSet fun k : β => k) :
    OrderedSet key :=
  ⟨keys.toList.map f, by simpa [List.pairwise_map, hf] using keys.sorted⟩

/-- An element is found at each of the keys. -/
theorem find?_ofKeys {f : β → α} {hf : ∀ k, key (f k) = k} {keys : OrderedSet fun k : β => k}
    {k : β} {x : α} :
  (ofKeys f hf keys).find? k = some x ↔ k ∈ keys ∧ x = f k
  := by
  rw [find?_eq_some]
  constructor
  · rintro ⟨hx, rfl⟩
    obtain ⟨k, hk, rfl⟩ := List.mem_map.mp hx
    rw [hf]
    exact ⟨hk, rfl⟩
  · rintro ⟨hk, rfl⟩
    exact ⟨List.mem_map_of_mem hk, hf k⟩

/-! ### Comparison -/

/-- The sets have the same size and their elements are pairwise equal in the sense of
`eq`. -/
def equal (eq : α → α → Bool) (s t : OrderedSet key) : Bool :=
  s.toList.isEqv t.toList eq

theorem isEqv_iff_forall₂ {eq : α → α → Bool} {l l' : List α} :
  l.isEqv l' eq = true ↔ List.Forall₂ (fun x y => eq x y = true) l l'
  := by
  induction l generalizing l' with
  | nil => cases l' <;> simp [List.isEqv]
  | cons x l ih => cases l' <;> simp [List.isEqv, ih]

/-- The comparison by the values of a function. -/
theorem equal_iff_map_eq {γ : Type*} {eq : α → α → Bool} {f : α → γ}
    (heq : ∀ x y, eq x y = true ↔ f x = f y) {s t : OrderedSet key} :
  s.equal eq t = true ↔ s.toList.map f = t.toList.map f
  := by
  rw [equal, isEqv_iff_forall₂, ← List.forall₂_eq_eq_eq, List.forall₂_map_left_iff,
    List.forall₂_map_right_iff]
  simp only [heq]

/-- Sets with equal values of a function that determines the key: what is found in one is
found in the other, with the same value. -/
theorem find?_map_eq {γ : Type*} (f : α → γ) (hkey : ∀ x y, f x = f y → key x = key y)
    {s t : OrderedSet key} (h : s.toList.map f = t.toList.map f) (k : β) :
  (s.find? k).map f = (t.find? k).map f
  := by
  have hlist : ∀ l l' : List α, l.map f = l'.map f →
      (l.find? fun x => key x = k).map f = (l'.find? fun x => key x = k).map f := by
    intro l
    induction l with
    | nil => simp [eq_comm]
    | cons x l ih =>
        intro l' h
        cases l' with
        | nil => simp at h
        | cons y l' =>
            obtain ⟨hxy, h⟩ := List.cons.inj h
            have hkeys := hkey x y hxy
            by_cases hk : key x = k
            · simp [hk, hkeys ▸ hk, hxy]
            · have hk' : ¬ key y = k := fun hy => hk (hkeys.trans hy)
              simp [hk, hk', ih l' h]
  apply hlist s.toList t.toList h

/-! ### Loops -/

/-- A loop over a set that updates a keyed store: if the iteration at an element only
changes the value at its key, in the way `R` says, then so does the loop. -/
theorem foldlM_keyed {σ ν : Type*} {step : σ → α → Option σ} {inv : σ → Prop}
    (get : σ → β → ν) (R : α → ν → ν → Prop)
    (hstep : ∀ s x s', inv s → step s x = some s' →
      inv s' ∧ R x (get s (key x)) (get s' (key x)) ∧ ∀ k ≠ key x, get s' k = get s k)
    (S : OrderedSet key) {s s' : σ} (hs : inv s) (h : S.toList.foldlM step s = some s') :
  inv s' ∧ (∀ x ∈ S, R x (get s (key x)) (get s' (key x))) ∧
    ∀ k, S.find? k = none → get s' k = get s k
  := by
  have hlist : ∀ l : List α, (l.Pairwise fun x y => key x < key y) → ∀ s, inv s →
      l.foldlM step s = some s' →
      inv s' ∧ (∀ x ∈ l, R x (get s (key x)) (get s' (key x))) ∧
        ∀ k, (∀ x ∈ l, key x ≠ k) → get s' k = get s k := by
    intro l
    induction l with
    | nil =>
        intro _ s hs h
        obtain rfl : s = s' := by simpa using h
        exact ⟨hs, by simp, fun _ _ => rfl⟩
    | cons x l ih =>
        intro hsorted s hs h
        obtain ⟨hx, hl⟩ := List.pairwise_cons.mp hsorted
        rw [List.foldlM_cons] at h
        obtain ⟨t, ht, h⟩ := Option.bind_eq_some_iff.mp h
        obtain ⟨hinv, hR, hkeep⟩ := hstep s x t hs ht
        obtain ⟨hinv', hR', hkeep'⟩ := ih hl t hinv h
        refine ⟨hinv', fun y hy => ?_, fun k hk => ?_⟩
        · obtain rfl | hy := List.mem_cons.mp hy
          · rw [hkeep' (key y) fun z hz => (hx z hz).ne']
            apply hR
          · have hyR := hR' y hy
            rwa [hkeep (key y) (hx y hy).ne'] at hyR
        · obtain ⟨hxk, hlk⟩ := List.forall_mem_cons.mp hk
          rw [hkeep' k hlk, hkeep k hxk.symm]
  obtain ⟨hinv, hR, hkeep⟩ := hlist S.toList S.sorted s hs h
  exact ⟨hinv, hR, fun k hk => hkeep k (find?_eq_none.mp hk)⟩

end OrderedSet
