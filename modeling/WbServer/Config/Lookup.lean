import WbServer.Config.Load

/-!
# `Config::lookup`

The map of `GetDatas()` has pointers to variables of any types. A `lookup` with a default
value finds what is there, or checks the name and binds a new variable; the other lookups
only find. The key is the name as it is given, while the variable stores it in lowercase:
they agree because the check admits no uppercase letters. `Datas.run_lawful` says what holds
behind any sequence of lookups, and `Datas.run_lookup_new` and `Datas.lookup_invalid` what a
lookup of a new name does.
-/

namespace WbServer

/-- A `ConfigVar` with the parts of its base class; `type` stands for its type argument. -/
structure Entry {τ : Type} (Val : τ → Type) where
  mName : String
  mDescription : String
  type : τ
  mVal : Val type

/-- `GetDatas()`: the pointers in the map, and the variables that they point to. -/
structure Datas {τ : Type} (Val : τ → Type) where
  find : String → Option ℕ
  heap : List (Entry Val)

/-- What a lookup returns, or the exception it throws. -/
inductive Found where
  | var (p : ℕ)
  | null
  | invalidArgument (what : String)
  deriving DecidableEq

/-- The characters of a name. -/
def validChars : List Char :=
  "abcdefghijklmnopqrstuvwxyz._0.123456789".toList

/-- The constructor of `ConfigVar`, with that of `ConfigVarBase`. -/
def Entry.new {τ : Type} {Val : τ → Type} (T : τ) (name : String) (defaultValue : Val T)
    (description : String) : Entry Val :=
  { mName := Config.toLower name
    mDescription := description
    type := T
    mVal := defaultValue }

namespace Datas

variable {τ : Type} {Val : τ → Type}

/-! ### The code -/

/-- The empty map. -/
def empty (Val : τ → Type) : Datas Val :=
  { find := fun _ => none, heap := [] }

section

variable [DecidableEq τ]

/-- `std::dynamic_pointer_cast<ConfigVar<T>>`. -/
def cast (s : Datas Val) (T : τ) (p : ℕ) : Found :=
  match s.heap[p]? with
  | some v => if v.type = T then .var p else .null
  | none => .null

/-- `Config::lookup<T>(name, default_value, description)`. -/
def lookup (s : Datas Val) (T : τ) (name : String) (defaultValue : Val T)
    (description : String) : Found × Datas Val :=
  match s.find name with
  | some p => (s.cast T p, s)
  | none =>
      if name.toList.any (· ∉ validChars) then (.invalidArgument name, s)
      else
        (.var s.heap.length,
          { find := Function.update s.find name (some s.heap.length)
            heap := s.heap ++ [.new T name defaultValue description] })

/-- `Config::lookup<T>(name)`. -/
def lookupTyped (s : Datas Val) (T : τ) (name : String) : Found :=
  match s.find name with
  | some p => s.cast T p
  | none => .null

/-- `Config::lookup_base`. -/
def lookupBase (s : Datas Val) (name : String) : Found :=
  match s.find name with
  | some p => .var p
  | none => .null

/-- A call of one of the lookups. -/
inductive Op (Val : τ → Type) where
  | lookup (T : τ) (name : String) (defaultValue : Val T) (description : String)
  | lookupTyped (T : τ) (name : String)
  | lookupBase (name : String)

/-- What the call returns, and the map behind it. -/
def exec (s : Datas Val) : Op Val → Found × Datas Val
  | .lookup T name defaultValue description => s.lookup T name defaultValue description
  | .lookupTyped T name => (s.lookupTyped T name, s)
  | .lookupBase name => (s.lookupBase name, s)

/-- The map behind a sequence of calls. -/
def run (ops : List (Op Val)) (s : Datas Val) : Datas Val :=
  ops.foldl (fun s op => (s.exec op).2) s

end

/-! ### Names -/

/-- The characters that the check admits. -/
theorem mem_validChars {c : Char} (h : c ∈ validChars) :
  (c.isLower = true ∨ c.isDigit = true ∨ c = '.' ∨ c = '_') ∧ c.toLower = c
  := by
  have hall : validChars.all (fun c => decide ((c.isLower = true ∨ c.isDigit = true ∨ c = '.' ∨
      c = '_') ∧ c.toLower = c)) = true := by decide
  exact of_decide_eq_true (List.all_eq_true.mp hall c h)

/-- A name of admitted characters is its own lowercase form. -/
theorem toLower_eq {name : String} (h : ∀ c ∈ name.toList, c ∈ validChars) :
  Config.toLower name = name
  := by
  have hmap : name.toList.map Char.toLower = name.toList.map id :=
    List.map_congr_left fun c hc => (mem_validChars (h c hc)).2
  rw [Config.toLower, hmap, List.map_id, String.ofList_toList]

/-! ### The calls -/

/-- The key of a pointer is admitted, and is the name of the variable. -/
def Keyed (s : Datas Val) : Prop :=
  ∀ name p, s.find name = some p →
    ∃ v, s.heap[p]? = some v ∧ v.mName = name ∧ ∀ c ∈ name.toList, c ∈ validChars

theorem keyed_empty :
  Keyed (empty Val)
  := by
  intro name p hp
  cases hp

variable [DecidableEq τ]

/-- A call leaves the map as it is, or it binds a new variable to an admitted name. -/
theorem exec_cases (s : Datas Val) (op : Op Val) :
  (s.exec op).2 = s ∨
  ∃ T name defaultValue description, s.find name = none ∧
    (∀ c ∈ name.toList, c ∈ validChars) ∧
    s.exec op = (.var s.heap.length,
      { find := Function.update s.find name (some s.heap.length)
        heap := s.heap ++ [.new T name defaultValue description] })
  := by
  cases op with
  | lookup T name defaultValue description =>
      simp only [exec, lookup]
      cases hname : s.find name with
      | some p => exact .inl rfl
      | none =>
          by_cases hvalid : name.toList.any (· ∉ validChars) = true
          · left
            rw [if_pos hvalid]
          · right
            use T, name, defaultValue, description, hname
            constructor
            · simpa using hvalid
            · rw [if_neg hvalid]
  | lookupTyped T name => exact .inl rfl
  | lookupBase name => exact .inl rfl

/-- What is bound in the first map is bound to the same variable in the second one. -/
def Kept (s s' : Datas Val) : Prop :=
  ∀ name p v, s.find name = some p → s.heap[p]? = some v →
    s'.find name = some p ∧ s'.heap[p]? = some v

theorem Keyed.exec {s : Datas Val} (h : Keyed s) (op : Op Val) :
  Keyed (s.exec op).2
  := by
  obtain hsame | ⟨T, name, d, description, -, hvalid, hnew⟩ := s.exec_cases op
  · rw [hsame]
    apply h
  · rw [hnew]
    intro name' p hp
    dsimp only at hp ⊢
    by_cases hname : name' = name
    · subst hname
      obtain rfl : s.heap.length = p := by simpa using hp
      use .new T name' d description
      exact ⟨by simp, toLower_eq hvalid, hvalid⟩
    · rw [Function.update_of_ne hname] at hp
      obtain ⟨v, hv, hvalid'⟩ := h name' p hp
      exact ⟨v, List.getElem?_append_left (List.getElem?_eq_some_iff.mp hv).1 ▸ hv, hvalid'⟩

theorem kept_exec (s : Datas Val) (op : Op Val) :
  Kept s (s.exec op).2
  := by
  intro name p v hp hv
  obtain hsame | ⟨T, name', d, description, hnone, -, hnew⟩ := s.exec_cases op
  · rw [hsame]
    exact ⟨hp, hv⟩
  · have hne : name ≠ name' := by
      rintro rfl
      rw [hp] at hnone
      cases hnone
    rw [hnew]
    constructor
    · simpa [hne] using hp
    · exact List.getElem?_append_left (List.getElem?_eq_some_iff.mp hv).1 ▸ hv

theorem Keyed.run {s : Datas Val} (h : Keyed s) (ops : List (Op Val)) :
  Keyed (run ops s)
  := by
  induction ops generalizing s with
  | nil => apply h
  | cons op ops ih => apply ih (h.exec op)

theorem kept_run (s : Datas Val) (ops : List (Op Val)) :
  Kept s (run ops s)
  := by
  induction ops generalizing s with
  | nil => exact fun _ _ _ hp hv => ⟨hp, hv⟩
  | cons op ops ih =>
      intro name p v hp hv
      obtain ⟨hp', hv'⟩ := kept_exec s op name p v hp hv
      apply ih _ name p v hp' hv'

theorem cast_eq {s : Datas Val} {p : ℕ} {v : Entry Val} (hv : s.heap[p]? = some v) (T : τ) :
  s.cast T p = if v.type = T then .var p else .null
  := by
  simp only [cast, hv]

/-- What holds of a map of variables: each key is a name in lowercase of letters, digits,
dots and underscores, under which also its lowercase form is found; a bound name stays bound
to the same variable; a lookup of its type returns it, and one of another type nothing; and
a lookup that returns no variable changes nothing. -/
structure Lawful (s : Datas Val) : Prop where
  key : ∀ name p, s.find name = some p → ∃ v, s.heap[p]? = some v ∧ v.mName = name ∧
    (∀ c ∈ name.toList, c.isLower = true ∨ c.isDigit = true ∨ c = '.' ∨ c = '_') ∧
    Config.toLower name = name
  bound : ∀ ops name p v, s.find name = some p → s.heap[p]? = some v →
    (run ops s).find name = some p ∧ (run ops s).heap[p]? = some v
  base : ∀ name p, s.find name = some p →
    s.exec (.lookupBase (Config.toLower name)) = (.var p, s)
  same : ∀ name p v, s.find name = some p → s.heap[p]? = some v →
    s.exec (.lookupTyped v.type name) = (.var p, s) ∧
      ∀ d description, s.exec (.lookup v.type name d description) = (.var p, s)
  other : ∀ name p v T, s.find name = some p → s.heap[p]? = some v → v.type ≠ T →
    s.exec (.lookupTyped T name) = (.null, s) ∧
      ∀ d description, s.exec (.lookup T name d description) = (.null, s)
  unchanged : ∀ op, (∀ p, (s.exec op).1 ≠ .var p) → (s.exec op).2 = s

theorem Keyed.lawful {s : Datas Val} (h : Keyed s) :
  Lawful s
  := by
  constructor
  case key =>
    intro name p hp
    obtain ⟨v, hv, hname, hvalid⟩ := h name p hp
    exact ⟨v, hv, hname, fun c hc => (mem_validChars (hvalid c hc)).1, toLower_eq hvalid⟩
  case bound =>
    intro ops name p v hp hv
    apply kept_run s ops name p v hp hv
  case base =>
    intro name p hp
    obtain ⟨v, hv, -, hvalid⟩ := h name p hp
    simp [Datas.exec, lookupBase, toLower_eq hvalid, hp]
  case same =>
    intro name p v hp hv
    simp [Datas.exec, lookupTyped, lookup, hp, cast_eq hv]
  case other =>
    intro name p v T hp hv hT
    simp [Datas.exec, lookupTyped, lookup, hp, cast_eq hv, hT]
  case unchanged =>
    intro op hop
    obtain hsame | ⟨T, name, d, description, -, -, hnew⟩ := s.exec_cases op
    · apply hsame
    · rw [hnew] at hop
      exact absurd rfl (hop s.heap.length)

/-- The map behind any sequence of lookups. -/
theorem run_lawful (ops : List (Op Val)) :
  Lawful (run ops (empty Val))
  := (keyed_empty.run ops).lawful

/-- Behind any sequence of lookups, one of a new name of admitted characters binds the name to
a new variable, to which no other name is bound, and returns it. -/
theorem run_lookup_new (ops : List (Op Val)) {name : String}
    (hname : (run ops (empty Val)).find name = none) (hvalid : ∀ c ∈ name.toList, c ∈ validChars)
    (T : τ) (defaultValue : Val T) (description : String) :
  ∃ p s', (run ops (empty Val)).lookup T name defaultValue description = (.var p, s') ∧
    s'.find name = some p ∧ s'.heap[p]? = some (.new T name defaultValue description) ∧
    ∀ name', s'.find name' = some p → name' = name
  := by
  have hkeyed : Keyed (run ops (empty Val)) := keyed_empty.run ops
  have hany : ¬ name.toList.any (· ∉ validChars) = true := by simpa using hvalid
  refine ⟨_, _, by rw [lookup, hname, if_neg hany], by simp, by simp, ?_⟩
  intro name' hp
  by_contra hne
  dsimp only at hp
  rw [Function.update_of_ne hne] at hp
  -- the pointers that are bound before are those of existing variables
  obtain ⟨v, hv, -⟩ := hkeyed name' _ hp
  simp at hv

/-- One of a new name with another character throws, and binds nothing. -/
theorem lookup_invalid {s : Datas Val} {name : String} (hname : s.find name = none) {c : Char}
    (hc : c ∈ name.toList) (hinvalid : c ∉ validChars) (T : τ) (defaultValue : Val T)
    (description : String) :
  s.lookup T name defaultValue description = (.invalidArgument name, s)
  := by
  have hany : name.toList.any (· ∉ validChars) = true :=
    List.any_eq_true.mpr ⟨c, hc, decide_eq_true hinvalid⟩
  rw [lookup, hname, if_pos hany]

end Datas

end WbServer
