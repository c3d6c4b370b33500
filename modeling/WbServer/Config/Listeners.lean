import Mathlib.Data.Finmap
import Mathlib.Tactic

/-!
# The keys of listeners

The counter `s_fun_id` of `add_listener` is shared by all variables of one value type, while
each variable has its own map `m_cbs`. As long as the counter does not wrap around, its
values are the numbers of the additions so far, and a key identifies one addition to one
variable. `Listeners.run_identifies` says what follows for the maps.
-/

namespace WbServer

namespace Listeners

/-! ### The code -/

/-- The variables `ι` of one value type: the counter and the maps from keys to callbacks. A
callback of `none` is the empty function. -/
structure Vars (ι F : Type) where
  sFunId : UInt64
  mCbs : ι → Finmap fun _ : UInt64 => Option F

/-- A call of one of the member functions of the variable `v`. -/
inductive Call (ι F : Type) where
  | addListener (v : ι) (cb : Option F)
  | delLietener (v : ι) (key : UInt64)
  | getListener (v : ι) (key : UInt64)
  | clearListener (v : ι)

variable {ι F : Type}

namespace Vars

/-- Variables without listeners. -/
def new : Vars ι F where
  sFunId := 0
  mCbs _ := ∅

/-- `get_listener`. -/
def getListener (s : Vars ι F) (v : ι) (key : UInt64) : Option F :=
  match (s.mCbs v).lookup key with
  | none => none
  | some cb => cb

variable [DecidableEq ι]

/-- `add_listener`. -/
def addListener (s : Vars ι F) (v : ι) (cb : Option F) : UInt64 × Vars ι F :=
  let id := s.sFunId + 1
  (id, { sFunId := id, mCbs := Function.update s.mCbs v ((s.mCbs v).insert id cb) })

/-- `del_lietener`. -/
def delLietener (s : Vars ι F) (v : ι) (key : UInt64) : Vars ι F :=
  { s with mCbs := Function.update s.mCbs v ((s.mCbs v).erase key) }

/-- `clear_listener`. -/
def clearListener (s : Vars ι F) (v : ι) : Vars ι F :=
  { s with mCbs := Function.update s.mCbs v ∅ }

/-- The variables behind a call. -/
def call (s : Vars ι F) : Call ι F → Vars ι F
  | .addListener v cb => (s.addListener v cb).2
  | .delLietener v key => s.delLietener v key
  | .getListener _ _ => s
  | .clearListener v => s.clearListener v

/-- The variables behind a sequence of calls. -/
def run (s : Vars ι F) (cs : List (Call ι F)) : Vars ι F :=
  cs.foldl call s

end Vars

/-! ### Additions -/

/-- A call adds a listener. -/
def Call.isAdd : Call ι F → Bool
  | addListener _ _ => true
  | _ => false

/-- The number of additions. -/
def adds (cs : List (Call ι F)) : ℕ :=
  cs.countP Call.isAdd

theorem adds_append (cs cs' : List (Call ι F)) :
  adds (cs ++ cs') = adds cs + adds cs'
  := List.countP_append

theorem adds_addListener (v : ι) (cb : Option F) (cs : List (Call ι F)) :
  adds (.addListener v cb :: cs) = adds cs + 1
  := List.countP_cons_of_pos rfl

variable [DecidableEq ι]

/-- The additions of a sequence of calls: the variable, and the key that is returned. -/
def added : List (Call ι F) → Vars ι F → List (ι × UInt64)
  | [], _ => []
  | .addListener v cb :: cs, s =>
      (v, (s.addListener v cb).1) :: added cs (s.addListener v cb).2
  | c :: cs, s => added cs (s.call c)

/-- The callback was added to the variable with this key, and the key has been neither
deleted nor cleared there since. -/
def Registered (cs : List (Call ι F)) (v : ι) (key : UInt64) (cb : Option F) : Prop :=
  ∃ pre post, cs = pre ++ .addListener v cb :: post ∧
    ((Vars.new.run pre).addListener v cb).1 = key ∧
    .delLietener v key ∉ post ∧ .clearListener v ∉ post

theorem added_append (cs cs' : List (Call ι F)) (s : Vars ι F) :
  added (cs ++ cs') s = added cs s ++ added cs' (s.run cs)
  := by
  induction cs generalizing s with
  | nil => rfl
  | cons c cs ih =>
      cases c with
      | addListener v cb => exact congrArg _ (ih _)
      | delLietener v key => apply ih
      | getListener v key => apply ih
      | clearListener v => apply ih

theorem run_concat (cs : List (Call ι F)) (c : Call ι F) (s : Vars ι F) :
  s.run (cs ++ [c]) = (s.run cs).call c
  := List.foldl_concat ..

/-- While the counter does not wrap around, the keys are consecutive numbers. -/
theorem added_keys {cs : List (Call ι F)} {s : Vars ι F}
    (h : s.sFunId.toNat + adds cs < 2 ^ 64) :
  (added cs s).map (fun a => a.2.toNat) = List.range' (s.sFunId.toNat + 1) (adds cs) ∧
    (s.run cs).sFunId.toNat = s.sFunId.toNat + adds cs
  := by
  induction cs generalizing s with
  | nil => exact ⟨rfl, rfl⟩
  | cons c cs ih =>
      cases c with
      | addListener v cb =>
          have hadds : adds (.addListener v cb :: cs) = adds cs + 1 :=
            List.countP_cons_of_pos rfl
          have hid : (s.addListener v cb).2.sFunId.toNat = s.sFunId.toNat + 1 := by
            rw [Vars.addListener, UInt64.toNat_add, UInt64.toNat_one, Nat.mod_eq_of_lt (by omega)]
          obtain ⟨hkeys, hlast⟩ := @ih (s.addListener v cb).2 (by omega)
          rw [hid] at hkeys hlast
          rw [hadds, List.range'_succ, added, List.map_cons, hkeys]
          constructor
          · exact congrArg (· :: _) hid
          · exact hlast.trans (by omega)
      | delLietener v key => exact @ih (s.delLietener v key) h
      | getListener v key => exact @ih s h
      | clearListener v => exact @ih (s.clearListener v) h

/-- The key of an addition is its number. -/
theorem run_sFunId {cs : List (Call ι F)} (h : adds cs < 2 ^ 64) :
  ((Vars.new : Vars ι F).run cs).sFunId.toNat = adds cs
  := by
  have hzero : (Vars.new : Vars ι F).sFunId.toNat = 0 := rfl
  obtain ⟨-, hlast⟩ := @added_keys _ _ _ cs Vars.new (by omega)
  omega

theorem addListener_key {cs : List (Call ι F)} (h : adds cs + 1 < 2 ^ 64) (v : ι)
    (cb : Option F) :
  ((Vars.new.run cs).addListener v cb).1.toNat = adds cs + 1
  := by
  have hlast := @run_sFunId _ _ _ cs (by omega)
  rw [Vars.addListener, UInt64.toNat_add, UInt64.toNat_one, hlast, Nat.mod_eq_of_lt h]

/-! ### Registered callbacks -/

/-- A key of a registered callback has been returned for its variable. -/
theorem Registered.mem_added {cs : List (Call ι F)} {v : ι} {key : UInt64} {cb : Option F}
    (h : Registered cs v key cb) :
  (v, key) ∈ added cs Vars.new
  := by
  obtain ⟨pre, post, rfl, hkey, -, -⟩ := h
  rw [added_append, added, hkey]
  simp

theorem Registered.le {cs : List (Call ι F)} (hcs : adds cs < 2 ^ 64) {v : ι} {key : UInt64}
    {cb : Option F} (h : Registered cs v key cb) :
  key.toNat ≤ adds cs
  := by
  obtain ⟨pre, post, rfl, hkey, -, -⟩ := h
  rw [adds_append, adds_addListener] at hcs ⊢
  rw [← hkey, addListener_key (by omega)]
  omega

/-- What one more call does. -/
theorem registered_concat {cs : List (Call ι F)} {c : Call ι F} {v : ι} {key : UInt64}
    {cb : Option F} :
  Registered (cs ++ [c]) v key cb ↔
    (Registered cs v key cb ∧ c ≠ .delLietener v key ∧ c ≠ .clearListener v) ∨
      c = .addListener v cb ∧ ((Vars.new.run cs).addListener v cb).1 = key
  := by
  constructor
  · rintro ⟨pre, post, hcs, hkey, hdel, hclear⟩
    obtain rfl | ⟨post, d, rfl⟩ := List.eq_nil_or_concat post
    · right
      obtain ⟨rfl, hc⟩ := List.append_inj' hcs rfl
      exact ⟨(List.cons.inj hc).1, hkey⟩
    · left
      have hsplit : cs ++ [c] = (pre ++ .addListener v cb :: post) ++ [d] := by
        simpa using hcs
      obtain ⟨rfl, hc⟩ := List.append_inj' hsplit rfl
      obtain rfl := (List.cons.inj hc).1
      simp only [List.concat_eq_append, List.mem_append, List.mem_singleton, not_or] at hdel hclear
      exact ⟨⟨pre, post, rfl, hkey, hdel.1, hclear.1⟩, Ne.symm hdel.2, Ne.symm hclear.2⟩
  · rintro (⟨⟨pre, post, rfl, hkey, hdel, hclear⟩, hc, hc'⟩ | ⟨rfl, hkey⟩)
    · exact ⟨pre, post ++ [c], by simp, hkey, by simp [hdel, Ne.symm hc],
        by simp [hclear, Ne.symm hc']⟩
    · exact ⟨cs, [], rfl, hkey, List.not_mem_nil, List.not_mem_nil⟩

/-- What is found in the map of a variable. -/
theorem lookup_eq_some_iff {cs : List (Call ι F)} (h : adds cs < 2 ^ 64) (v : ι) (key : UInt64)
    (cb : Option F) :
  ((Vars.new.run cs).mCbs v).lookup key = some cb ↔ Registered cs v key cb
  := by
  induction cs using List.reverseRecOn generalizing key with
  | nil =>
      constructor
      · intro hnone
        simp [Vars.run, Vars.new] at hnone
      · rintro ⟨pre, post, hnil, -⟩
        simp at hnil
  | append_singleton cs c ih =>
      rw [adds_append] at h
      have ih' := ih (by omega) key
      rw [registered_concat, ← ih', run_concat]
      set s := (Vars.new : Vars ι F).run cs with hs
      cases c with
      | addListener v' cb' =>
          rw [adds_addListener] at h
          have hid : (s.sFunId + 1).toNat = adds cs + 1 := addListener_key h v' cb'
          have hfresh : (s.mCbs v).lookup (s.sFunId + 1) ≠ some cb := by
            intro hsome
            have hle := Registered.le (by omega) ((ih (by omega) (s.sFunId + 1)).mp hsome)
            omega
          simp only [Vars.call, Vars.addListener]
          by_cases hv : v = v'
          · subst hv
            by_cases hkey : key = s.sFunId + 1
            · subst hkey
              simp [hfresh, eq_comm]
            · simp [Finmap.lookup_insert_of_ne _ hkey, Ne.symm hkey]
          · simp [Function.update_of_ne hv, Ne.symm hv]
      | delLietener v' key' =>
          simp only [Vars.call, Vars.delLietener]
          by_cases hv : v = v'
          · subst hv
            by_cases hkey : key = key'
            · subst hkey
              simp [Finmap.lookup_erase]
            · simp [Finmap.lookup_erase_ne hkey, Ne.symm hkey]
          · simp [Function.update_of_ne hv, Ne.symm hv]
      | getListener v' key' => simp [Vars.call]
      | clearListener v' =>
          simp only [Vars.call, Vars.clearListener]
          by_cases hv : v = v'
          · simp [hv]
          · simp [Function.update_of_ne hv, Ne.symm hv]

/-- The callback of a registered key. -/
theorem getListener_eq_some_iff {cs : List (Call ι F)} (h : adds cs < 2 ^ 64) (v : ι)
    (key : UInt64) (f : F) :
  (Vars.new.run cs).getListener v key = some f ↔ Registered cs v key (some f)
  := by
  rw [← lookup_eq_some_iff h, Vars.getListener]
  cases hlookup : ((Vars.new.run cs).mCbs v).lookup key with
  | none => simp
  | some cb => simp

/-- The keys that the calls return are distinct. A callback is found at a variable if and
only if it is registered there. To delete a key of another variable changes nothing. -/
structure Identifies (cs : List (Call ι F)) : Prop where
  distinct : ((added cs Vars.new).map Prod.snd).Nodup
  found : ∀ v key f,
    (Vars.new.run cs).getListener v key = some f ↔ Registered cs v key (some f)
  foreign : ∀ v v' key, (v', key) ∈ added cs Vars.new → v ≠ v' →
    (Vars.new.run cs).delLietener v key = Vars.new.run cs

theorem added_nodup {cs : List (Call ι F)} (h : adds cs < 2 ^ 64) :
  ((added cs Vars.new).map Prod.snd).Nodup
  := by
  have hzero : (Vars.new : Vars ι F).sFunId.toNat = 0 := rfl
  obtain ⟨hkeys, -⟩ := @added_keys _ _ _ cs Vars.new (by omega)
  apply List.Nodup.of_map UInt64.toNat
  rw [List.map_map]
  exact hkeys ▸ List.nodup_range'

/-- Any calls with fewer than `2 ^ 64` additions. -/
theorem run_identifies (cs : List (Call ι F)) (h : adds cs < 2 ^ 64) :
  Identifies cs
  := by
  constructor
  case distinct => apply added_nodup h
  case found => apply getListener_eq_some_iff h
  case foreign =>
    intro v v' key hkey hne
    have hnone : ((Vars.new.run cs).mCbs v).lookup key = none := by
      by_contra hsome
      obtain ⟨cb, hcb⟩ := Option.ne_none_iff_exists'.mp hsome
      have hmem := ((lookup_eq_some_iff h v key cb).mp hcb).mem_added
      have heq := List.inj_on_of_nodup_map (added_nodup h) hmem hkey rfl
      apply hne (Prod.mk.inj heq).1
    have herase : ((Vars.new.run cs).mCbs v).erase key = (Vars.new.run cs).mCbs v := by
      apply Finmap.ext_lookup
      intro key'
      by_cases hkey' : key' = key
      · rw [hkey', Finmap.lookup_erase, hnone]
      · rw [Finmap.lookup_erase_ne hkey']
    rw [Vars.delLietener, herase, Function.update_eq_self]

/-- Two variables: the second one deletes the key of the first one, and then its own. -/
def twoVariables : List (Call Bool ℕ) :=
  [.addListener false (some 7), .addListener true (some 8), .delLietener true 1,
    .delLietener true 2]

theorem run_identifies_twoVariables :
  adds twoVariables < 2 ^ 64 ∧
    (Vars.new.run twoVariables).getListener false 1 = some 7 ∧
    (Vars.new.run twoVariables).getListener true 2 = none ∧ Identifies twoVariables
  := by
  have hadds : adds twoVariables < 2 ^ 64 := by decide
  exact ⟨hadds, rfl, rfl, run_identifies twoVariables hadds⟩

end Listeners

end WbServer
