import WbServer.Config.Var
import WbServer.Yaml

/-!
# `Config::load_from_yaml`

The document is flattened into a list of nodes with their dotted paths, and every node
whose lowercased path is the name of a variable is converted and stored, in the order of
the list. `Config.loadFromYaml_spec` relates the outcome to the document: a variable holds
the value of the last node with its name for which the conversion succeeds.
-/

namespace WbServer

open Yaml (Node)

/-- The variables of the program: their types, whether a name is registered, and for each
name `LexicalCast` and `operator==`. -/
structure Registry where
  T : String → Type
  registered : String → Bool
  fromStr : (name : String) → String → Option (T name)
  eq : (name : String) → T name → T name → Bool

/-- `Config`: the variables, the world their listeners act on, and the calls of listeners
so far. -/
structure Config (R : Registry) (W ε : Type) where
  vars : (name : String) → ConfigVar (R.T name) W ε
  world : W
  calls : List (String × ℕ)

namespace Config

/-! ### The code -/

mutual

/-- `list_all_menmber`, with `pfx` for `prefix`. An invalid prefix is only logged. -/
def listAllMenmber (pfx : String) : Node → List (String × Node)
  | .map es style => (pfx, .map es style) :: listEntries pfx es
  | n => [(pfx, n)]

/-- The loop over the entries of a map. -/
def listEntries (pfx : String) : List (Node × Node) → List (String × Node)
  | [] => []
  | (k, v) :: es =>
      listAllMenmber (if pfx = "" then k.scalarText else pfx ++ "." ++ k.scalarText) v ++
        listEntries pfx es

end

/-- `std::transform` with `tolower`. -/
def toLower (key : String) : String :=
  String.ofList (key.toList.map Char.toLower)

/-- The text of a node for `from_string`. -/
def text (emit : Node → String) : Node → String
  | .scalar s => s
  | n => emit n

variable {R : Registry} {W ε : Type}

/-- The loop body of `load_from_yaml`. -/
def loadNode (emit : Node → String) (c : Config R W ε) (i : String × Node) : Config R W ε :=
  if i.1 = "" then c
  else
    let key := toLower i.1
    if R.registered key then
      let u := (ConfigVar.fromString (R.fromStr key) (R.eq key) (c.vars key)
        (text emit i.2) c.world).1
      { vars := Function.update c.vars key u.var
        world := u.world
        calls := c.calls ++ u.calls.map fun id => (key, id) }
    else c

/-- `Config::load_from_yaml`. -/
def loadFromYaml (emit : Node → String) (root : Node) (c : Config R W ε) : Config R W ε :=
  (listAllMenmber "" root).foldl (loadNode emit) c

/-! ### The flattened document -/

mutual

/-- The list holds the nodes in preorder with their dotted paths. -/
theorem listAllMenmber_eq (keys : List String) :
  ∀ n : Node, listAllMenmber (Node.dottedPath keys) n =
    (n.preorder keys).map fun p => (Node.dottedPath p.1, p.2)
  | .map es style => by
      rw [listAllMenmber, Node.preorder, List.map_cons, listEntries_eq keys es]
  | .null => rfl
  | .scalar _ => rfl
  | .seq _ _ => rfl

theorem listEntries_eq (keys : List String) :
  ∀ es : List (Node × Node), listEntries (Node.dottedPath keys) es =
    (Node.preorderEntries keys es).map fun p => (Node.dottedPath p.1, p.2)
  | [] => rfl
  | (k, v) :: es => by
      rw [listEntries, Node.preorderEntries, List.map_append, ← Node.dottedPath_concat,
        listAllMenmber_eq (keys ++ [k.scalarText]) v, listEntries_eq keys es]

end

/-! ### The outcome -/

/-- What a node of the flattened document assigns to the variable `name`: the path is not
empty, its lowercase form is the name, and the conversion succeeds. -/
def assigned (R : Registry) (emit : Node → String) (name : String) (i : String × Node) :
    Option (R.T name) :=
  if i.1 ≠ "" ∧ toLower i.1 = name then R.fromStr name (text emit i.2) else none

/-- What the nodes of a document assign to the variable `name`, in preorder. -/
def assignments (R : Registry) (emit : Node → String) (name : String) (root : Node) :
    List (R.T name) :=
  (root.preorder []).filterMap fun p => assigned R emit name (Node.dottedPath p.1, p.2)

/-- The listeners of the variables do not throw. -/
def NoThrow (c : Config R W ε) : Prop :=
  ∀ name, (c.vars name).NoThrow

/-- How a variable is changed from `c` to `c'` by the values assigned to it: it holds the
last one, and only if there is one are its listeners called. -/
structure Assigns (name : String) (values : List (R.T name)) (c c' : Config R W ε) : Prop where
  value : (c'.vars name).mVal = values.getLast?.getD (c.vars name).mVal
  calls : values = [] → c'.calls.filter (·.1 = name) = c.calls.filter (·.1 = name)

theorem Assigns.refl (name : String) (c : Config R W ε) :
  Assigns name [] c c
  := ⟨rfl, fun _ => rfl⟩

theorem Assigns.trans {name : String} {xs ys : List (R.T name)} {c c' c'' : Config R W ε}
    (h : Assigns name xs c c') (h' : Assigns name ys c' c'') :
  Assigns name (xs ++ ys) c c''
  := by
  constructor
  case value =>
    rw [h'.value, h.value, List.getLast?_append]
    cases ys.getLast? <;> rfl
  case calls =>
    intro hnil
    obtain ⟨hx, hy⟩ := List.append_eq_nil_iff.mp hnil
    rw [h'.calls hy, h.calls hx]

/-- One node of the list. -/
theorem loadNode_assigns (heq : ∀ name x y, R.eq name x y = true ↔ x = y)
    (emit : Node → String) {c : Config R W ε} (hc : c.NoThrow) (i : String × Node) (name : String)
    (hname : R.registered name = true) :
  Assigns name (assigned R emit name i).toList c (loadNode emit c i)
  := by
  unfold loadNode assigned
  by_cases hempty : i.1 = ""
  · simpa [hempty] using Assigns.refl name c
  · by_cases hkey : toLower i.1 = name
    · subst hkey
      simp only [hempty, hname, if_true, if_false, ne_eq, not_false_iff, true_and]
      cases hv : R.fromStr (toLower i.1) (text emit i.2) with
      | none =>
          rw [ConfigVar.fromString_of_none hv]
          constructor <;> simp
      | some v =>
          have hvar := (hc (toLower i.1)).fromString_var (w := c.world) (heq _) hv
          constructor
          case value => simp [hvar]
          case calls => simp
    · simp only [hempty, hkey, if_false, ne_eq, not_false_iff, true_and]
      split
      · have hne : name ≠ toLower i.1 := fun h => hkey h.symm
        constructor
        case value => simp [hne]
        case calls => simp [hkey]
      · apply Assigns.refl name c

theorem loadNode_mCbs (emit : Node → String) (c : Config R W ε) (i : String × Node)
    (name : String) :
  ((loadNode emit c i).vars name).mCbs = (c.vars name).mCbs
  := by
  simp only [loadNode]
  split
  · rfl
  · split
    · by_cases hname : name = toLower i.1
      · subst hname
        simp
      · simp [hname]
    · rfl

theorem NoThrow.loadNode {c : Config R W ε} (hc : c.NoThrow) (emit : Node → String)
    (i : String × Node) :
  (loadNode emit c i).NoThrow
  := by
  intro name
  rw [ConfigVar.NoThrow, loadNode_mCbs]
  apply hc name

/-- The loop over the list. -/
theorem foldl_assigns (heq : ∀ name x y, R.eq name x y = true ↔ x = y) (emit : Node → String)
    {c : Config R W ε} (hc : c.NoThrow) (l : List (String × Node)) (name : String)
    (hname : R.registered name = true) :
  Assigns name (l.filterMap (assigned R emit name)) c (l.foldl (loadNode emit) c)
  := by
  induction l generalizing c with
  | nil => apply Assigns.refl name c
  | cons i l ih =>
      have hone := loadNode_assigns heq emit hc i name hname
      have hall := hone.trans (ih (hc.loadNode emit i))
      cases hi : assigned R emit name i with
      | none => simpa [hi] using hall
      | some v => simpa [hi] using hall

/-- Behind `load_from_yaml`, a variable holds what the last node assigns to it that assigns
something, in the preorder of the document. If no node does, it keeps its value and its
listeners are not called. -/
theorem loadFromYaml_assigns (heq : ∀ name x y, R.eq name x y = true ↔ x = y)
    (emit : Node → String) (root : Node) {c : Config R W ε} (hc : c.NoThrow) (name : String)
    (hname : R.registered name = true) :
  Assigns name (assignments R emit name root) c (loadFromYaml emit root c)
  := by
  have hlist : listAllMenmber "" root =
      (root.preorder []).map fun p => (Node.dottedPath p.1, p.2) := listAllMenmber_eq [] root
  have hall := foldl_assigns heq emit hc (listAllMenmber "" root) name hname
  rw [hlist, List.filterMap_map] at hall
  rw [loadFromYaml, hlist]
  apply hall

/-- The variables `a.b` and `c`; a text is converted unless it is `bad`. -/
def twoVariables : Registry where
  T _ := String
  registered name := name = "a.b" || name = "c"
  fromStr _ text := if text = "bad" then none else some text
  eq _ (x y : String) := x = y

/-- Both variables are `0` and have a listener that counts its calls. -/
def counting : Config twoVariables ℕ Empty where
  vars _ := { mVal := "0", mCbs := [(1, fun _ _ w => (w + 1, none))] }
  world := 0
  calls := []

/-- A document that names `a.b` three times, in three ways. -/
def document : Node :=
  .map [(.scalar "", .map [(.scalar "A", .map [(.scalar "b", .scalar "1")])]),
    (.scalar "a.B", .scalar "2"), (.scalar "a", .map [(.scalar "b", .scalar "bad")])]

theorem loadFromYaml_assigns_document :
  let c := loadFromYaml (fun _ => "") document counting
  (c.vars "a.b").mVal = "2" ∧ (c.vars "c").mVal = "0" ∧ c.calls.filter (·.1 = "c") = []
  := by
  have heq : ∀ name x y, twoVariables.eq name x y = true ↔ x = y := by
    intro _ x y
    have hdecide : ∀ x y : String, decide (x = y) = true ↔ x = y := by simp
    apply hdecide x y
  have hc : counting.NoThrow := by
    intro name c hc old new w
    obtain rfl := List.mem_singleton.mp hc
    rfl
  have hab := loadFromYaml_assigns heq (fun _ => "") document hc "a.b" rfl
  have hcc := loadFromYaml_assigns heq (fun _ => "") document hc "c" rfl
  have hvalues : assignments twoVariables (fun _ => "") "a.b" document = ["1", "2"] := rfl
  have hnone : assignments twoVariables (fun _ => "") "c" document = [] := rfl
  refine ⟨?_, ?_, ?_⟩
  · rw [hab.value, hvalues]
    rfl
  · rw [hcc.value, hnone]
    rfl
  · apply hcc.calls hnone

end Config

end WbServer
