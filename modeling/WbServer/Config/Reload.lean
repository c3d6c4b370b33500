import WbServer.Config.Reorder

/-!
# Loading a document again

A node of a document is settled if its conversion fails or gives a value that the `==` of
the variable takes for the stored one. A settled node is passed over. Behind
`load_from_yaml` all nodes of a document with distinct paths are settled, so that a second
`load_from_yaml` does nothing (`Config.loadFromYaml_reload`).
-/

namespace WbServer

open Yaml (Node)

namespace Config

variable {R : Registry} {W ε : Type}

/-- The node has no variable, or its conversion is stored already or fails. -/
def Settled (emit : Node → String) (c : Config R W ε) (i : String × Node) : Prop :=
  ∀ name, Names R name i → ∀ v, R.fromStr name (text emit i.2) = some v →
    R.eq name v (c.vars name).mVal = true

/-- A settled node changes no variable and calls no listener. -/
theorem Settled.loadNode {emit : Node → String} {c : Config R W ε} {i : String × Node}
    (h : Settled emit c i) :
  loadNode emit c i = c
  := by
  simp only [Config.loadNode]
  split
  case isTrue => rfl
  case isFalse hpath =>
    split
    case isFalse => rfl
    case isTrue hregistered =>
      have hu : (ConfigVar.fromString (R.fromStr (toLower i.1)) (R.eq (toLower i.1))
          (c.vars (toLower i.1)) (text emit i.2) c.world).1 =
          { var := c.vars (toLower i.1), world := c.world, calls := [], thrown := none } := by
        cases hv : R.fromStr (toLower i.1) (text emit i.2) with
        | none => apply ConfigVar.fromString_of_none hv
        | some v =>
            have heq := h (toLower i.1) ⟨hpath, rfl, hregistered⟩ v hv
            simp only [ConfigVar.fromString, hv, ConfigVar.setValue_of_eq heq]
      simp only [hu, Function.update_eq_self, List.map_nil, List.append_nil]

theorem foldl_settled {emit : Node → String} {c : Config R W ε} {l : List (String × Node)}
    (h : ∀ i ∈ l, Settled emit c i) :
  l.foldl (loadNode emit) c = c
  := by
  induction l with
  | nil => rfl
  | cons i l ih =>
      obtain ⟨hi, hl⟩ := List.forall_mem_cons.mp h
      rw [List.foldl_cons, hi.loadNode, ih hl]

/-- What `from_string` leaves is equal to what it converts. -/
theorem eq_stored {name : String} (hrefl : ∀ x, R.eq name x x = true) {emit : Node → String}
    {i : String × Node} {v : R.T name} (hv : R.fromStr name (text emit i.2) = some v)
    (old : R.T name) :
  R.eq name v (stored R emit name old i) = true
  := by
  simp only [stored, ConfigVar.stored, hv]
  split
  case isTrue h => apply h
  case isFalse => apply hrefl

/-- Behind `load_from_yaml` the nodes of the document are settled. -/
theorem loadFromYaml_settled (emit : Node → String) {root : Node} (hdistinct : Distinct root)
    (hrefl : ∀ name, R.registered name = true → ∀ x, R.eq name x x = true)
    {c : Config R W ε} (hc : c.NoThrow)
    {i : String × Node} (hi : i ∈ listAllMenmber "" root) :
  Settled emit (loadFromYaml emit root c) i
  := by
  intro name hname v hv
  have hlist : listAllMenmber "" root = (root.preorder []).map entry := listAllMenmber_eq [] root
  rw [hlist] at hi
  obtain ⟨p, hp, rfl⟩ := List.mem_map.mp hi
  have hmem : p ∈ (root.preorder []).filter fun p => Names R name (entry p) :=
    List.mem_filter.mpr ⟨hp, by simpa using hname⟩
  rw [loadFromYaml_stored emit root hc]
  obtain hnone | ⟨q, hone⟩ := hdistinct.filter_le (R := R) name
  · rw [hnone] at hmem
    cases hmem
  · rw [hone] at hmem ⊢
    obtain rfl := List.mem_singleton.mp hmem
    apply eq_stored (hrefl name hname.2.2) hv

/-- If the paths of a document are distinct, loading it a second time changes no variable
and calls no listener. -/
theorem loadFromYaml_reload (emit : Node → String) {root : Node} (hdistinct : Distinct root)
    (hrefl : ∀ name, R.registered name = true → ∀ x, R.eq name x x = true)
    {c : Config R W ε} (hc : c.NoThrow) :
  loadFromYaml emit root (loadFromYaml emit root c) = loadFromYaml emit root c
  := by
  apply foldl_settled
  intro i hi
  apply loadFromYaml_settled emit hdistinct hrefl hc hi

/-- The document `a: {b: bad}`, `c: 5`. -/
def partlyBad : Node :=
  .map [(.scalar "a", .map [(.scalar "b", .scalar "bad")]), (.scalar "c", .scalar "5")]

theorem loadFromYaml_reload_partlyBad :
  let c := loadFromYaml (fun _ => "bad") partlyBad counting
  (c.vars "c").mVal = "5" ∧ c.calls = [("c", 1)] ∧
    loadFromYaml (fun _ => "bad") partlyBad c = c
  := by
  have hdistinct : Distinct partlyBad := by
    have hpaths : ((partlyBad.preorder []).map fun p => toLower (Node.dottedPath p.1)) =
        ["", "a", "a.b", "c"] := rfl
    rw [Distinct, hpaths]
    decide
  have hrefl : ∀ name, twoVariables.registered name = true →
      ∀ x, twoVariables.eq name x x = true := by
    intro _ _ x
    have hdecide : ∀ x : String, decide (x = x) = true := by simp
    apply hdecide x
  have hc : counting.NoThrow := by
    intro name c hc old new w
    obtain rfl := List.mem_singleton.mp hc
    rfl
  exact ⟨rfl, rfl, loadFromYaml_reload (fun _ => "bad") hdistinct hrefl hc⟩

end Config

end WbServer
