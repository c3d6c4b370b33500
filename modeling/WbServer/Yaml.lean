import Mathlib.Tactic

/-!
# YAML nodes

What the configuration code uses of yaml-cpp: the nodes of a document, the access to their
parts, and the emitter and the loader, which are parameters. `Node` is the type of the nodes
of documents without aliases. A node keeps the style that it was written in, and is emitted
in it, so that nodes with one content may have different texts.
-/

namespace WbServer

namespace Yaml

/-- The content of a node, with parts of type `V`. -/
inductive Shape (V : Type) where
  | null
  | scalar (text : String)
  | seq (nodes : List V)
  | map (entries : List (V × V))

namespace Shape

variable {V W : Type}

/-- `Scalar()`, which is empty for other nodes. -/
def scalarText : Shape V → String
  | scalar text => text
  | _ => ""

/-- The text of a scalar. -/
def key : Shape V → Option String
  | scalar text => some text
  | _ => none

theorem scalarText_eq (s : Shape V) :
  s.scalarText = s.key.getD ""
  := by
  cases s <;> rfl

/-- The content with other parts. -/
def mapParts (f : V → W) : Shape V → Shape W
  | null => .null
  | scalar text => .scalar text
  | seq nodes => .seq (nodes.map f)
  | map es => .map (es.map fun e => (f e.1, f e.2))

/-- The same content, up to a relation of the parts. -/
inductive Rel (r : V → V → Prop) : Shape V → Shape V → Prop where
  | null : Rel r null null
  | scalar (text : String) : Rel r (scalar text) (scalar text)
  | seq {nodes nodes' : List V} (h : List.Forall₂ r nodes nodes') :
      Rel r (seq nodes) (seq nodes')
  | map {es es' : List (V × V)}
      (h : List.Forall₂ (fun e e' => r e.1 e'.1 ∧ r e.2 e'.2) es es') : Rel r (map es) (map es')

theorem Rel.refl {r : V → V → Prop} (h : ∀ v, r v v) (s : Shape V) :
  Rel r s s
  := by
  cases s with
  | null => exact .null
  | scalar text => exact .scalar text
  | seq nodes => exact .seq (List.forall₂_same.mpr fun n _ => h n)
  | map es => exact .map (List.forall₂_same.mpr fun e _ => ⟨h e.1, h e.2⟩)

end Shape

/-- A type of nodes: their contents, and the new node with a content. -/
class Nodes (N : Type) where
  shape : N → Shape N
  new : Shape N → N
  shape_new : ∀ s, shape (new s) = s

/-- The value of the first entry whose key is the given scalar. -/
def lookup {N : Type} [Nodes N] (key : String) : List (N × N) → Option N
  | [] => none
  | (k, v) :: es => if (Nodes.shape k).key = some key then some v else lookup key es

/-- The style of a sequence or a map. -/
inductive Style where
  | block
  | flow

/-- A `YAML::Node` without aliases. -/
inductive Node where
  | null
  | scalar (text : String)
  | seq (nodes : List Node) (style : Style := .block)
  | map (entries : List (Node × Node)) (style : Style := .block)

namespace Node

/-- A node that the program makes is emitted in block style. -/
instance : Nodes Node where
  shape n :=
    match n with
    | null => .null
    | scalar text => .scalar text
    | seq nodes _ => .seq nodes
    | map es _ => .map es
  new s :=
    match s with
    | .null => null
    | .scalar text => scalar text
    | .seq nodes => seq nodes
    | .map es => map es
  shape_new s := by cases s <;> rfl

@[simp]
theorem key_scalar (text : String) :
  (Nodes.shape (scalar text)).key = some text
  := rfl

/-- `Scalar()`, which is empty for other nodes. -/
def scalarText : Node → String
  | scalar text => text
  | _ => ""

/-- `node[key]` for a string: the result may be undefined, and a scalar throws. -/
def get (n : Node) (key : String) : Option (Option Node) :=
  match n with
  | scalar _ => none
  | map es _ => some (lookup key es)
  | _ => some none

/-- `as<std::string>()`, which throws for a sequence or a map. -/
def asString : Node → Option String
  | null => some "null"
  | scalar text => some text
  | _ => none

/-- The nodes `node[i]` for `i` below `node.size()`. An undefined node has no entries, like
`null`. -/
def elements : Node → List Node
  | seq nodes _ => nodes
  | map es _ => (List.range es.length).map fun i => (lookup (toString i) es).getD null
  | _ => []

/-- The node after the assignments `node[key] = value` to distinct keys. -/
def ofEntries (es : List (String × Node)) : Node :=
  if es = [] then null else map (es.map fun e => (scalar e.1, e.2))

/-- The node after calls of `push_back`. -/
def ofElements (nodes : List Node) : Node :=
  if nodes = [] then null else seq nodes

@[simp]
theorem elements_ofElements (nodes : List Node) :
  (ofElements nodes).elements = nodes
  := by
  cases nodes <;> rfl

/-- What has been assigned is found. -/
@[simp]
theorem get_ofEntries (es : List (String × Node)) (key : String) :
  (ofEntries es).get key = some ((es.find? fun e => e.1 = key).map Prod.snd)
  := by
  have hlookup : ∀ es : List (String × Node), lookup key (es.map fun e => (scalar e.1, e.2)) =
      (es.find? fun e => e.1 = key).map Prod.snd := by
    intro es
    induction es with
    | nil => rfl
    | cons e es ih =>
        by_cases h : e.1 = key
        · simp [lookup, h]
        · simp [lookup, h, ih]
  cases es with
  | nil => rfl
  | cons e es => simp only [ofEntries, get, hlookup, if_neg (List.cons_ne_nil e es)]

/-! ### Style -/

mutual

/-- The node in block style, at all depths. -/
def plain : Node → Node
  | null => null
  | scalar text => scalar text
  | seq nodes _ => seq (plainElements nodes)
  | map es _ => map (plainEntries es)

/-- The elements of a sequence in block style. -/
def plainElements : List Node → List Node
  | [] => []
  | n :: nodes => plain n :: plainElements nodes

/-- The entries of a map in block style. -/
def plainEntries : List (Node × Node) → List (Node × Node)
  | [] => []
  | (k, v) :: es => (plain k, plain v) :: plainEntries es

end

theorem plainElements_eq (nodes : List Node) :
  plainElements nodes = nodes.map plain
  := by
  induction nodes with
  | nil => rfl
  | cons n nodes ih => rw [plainElements, ih, List.map_cons]

theorem plainEntries_eq (es : List (Node × Node)) :
  plainEntries es = es.map fun e => (plain e.1, plain e.2)
  := by
  induction es with
  | nil => rfl
  | cons e es ih => rw [plainEntries, ih, List.map_cons]

@[simp]
theorem key_plain (n : Node) :
  (Nodes.shape n.plain).key = (Nodes.shape n).key
  := by
  cases n <;> rfl

theorem lookup_plain (key : String) (es : List (Node × Node)) :
  lookup key (es.map fun e => (plain e.1, plain e.2)) = (lookup key es).map plain
  := by
  induction es with
  | nil => rfl
  | cons e es ih =>
      rw [List.map_cons, lookup, lookup, key_plain, ih]
      split <;> rfl

/-- What the code reads of a node does not depend on its style. -/
theorem get_plain (n : Node) (key : String) :
  n.plain.get key = (n.get key).map (Option.map plain)
  := by
  cases n with
  | map es style => simp [plain, plainEntries_eq, get, lookup_plain]
  | _ => rfl

@[simp]
theorem asString_plain (n : Node) :
  n.plain.asString = n.asString
  := by
  cases n <;> rfl

theorem elements_plain (n : Node) :
  n.plain.elements = n.elements.map plain
  := by
  cases n with
  | seq nodes style => rw [plain, elements, elements, plainElements_eq]
  | map es style =>
      simp only [plain, plainEntries_eq, elements, lookup_plain, List.length_map, List.map_map]
      apply List.map_congr_left
      intro i _
      rw [Function.comp_apply]
      cases lookup (toString i) es <;> rfl
  | _ => rfl

theorem plain_ofElements (nodes : List Node) :
  (ofElements nodes).plain = ofElements (nodes.map plain)
  := by
  cases nodes with
  | nil => rfl
  | cons n nodes => simp [ofElements, plain, plainElements_eq]

theorem plain_ofEntries (es : List (String × Node)) :
  (ofEntries es).plain = ofEntries (es.map fun e => (e.1, plain e.2))
  := by
  cases es with
  | nil => rfl
  | cons e es => simp [ofEntries, plain, plainEntries_eq]

/-! ### Preorder -/

mutual

/-- The nodes below the keys `keys`, in preorder, each with the keys that lead to it.
Sequences are not descended into. -/
def preorder (keys : List String) : Node → List (List String × Node)
  | map es style => (keys, map es style) :: preorderEntries keys es
  | n => [(keys, n)]

/-- The nodes below the entries of a map. -/
def preorderEntries (keys : List String) : List (Node × Node) → List (List String × Node)
  | [] => []
  | (k, v) :: es => preorder (keys ++ [k.scalarText]) v ++ preorderEntries keys es

end

/-- Keys joined by dots. -/
def dotted : List String → String
  | [] => ""
  | k :: keys => keys.foldl (fun path key => path ++ "." ++ key) k

/-- The dotted path of a sequence of keys: empty keys in front leave no trace. -/
def dottedPath (keys : List String) : String :=
  dotted (keys.dropWhile (· = ""))

theorem dotted_ne_empty {k : String} (h : k ≠ "") (keys : List String) :
  dotted (k :: keys) ≠ ""
  := by
  unfold dotted
  induction keys generalizing k with
  | nil => apply h
  | cons x keys ih =>
      have hk : k ++ "." ++ x ≠ "" := by simp
      apply ih hk

/-- A path is extended by a dot and the key, unless it is empty. -/
theorem dottedPath_concat (keys : List String) (k : String) :
  dottedPath (keys ++ [k]) =
    if dottedPath keys = "" then k else dottedPath keys ++ "." ++ k
  := by
  unfold dottedPath
  cases hkeys : keys.dropWhile (· = "") with
  | nil =>
      have hdrop : (keys ++ [k]).dropWhile (· = "") = [k].dropWhile (· = "") := by
        rw [List.dropWhile_append, hkeys]
        rfl
      rw [hdrop]
      by_cases hk : k = ""
      · simp [hk, dotted]
      · simp [hk, dotted]
  | cons x l =>
      have hx : x ≠ "" := by
        have hhead := List.head?_dropWhile_not (· = "") keys
        rw [hkeys] at hhead
        simpa using hhead
      have hdrop : (keys ++ [k]).dropWhile (· = "") = x :: (l ++ [k]) := by
        rw [List.dropWhile_append, hkeys]
        rfl
      rw [hdrop, if_neg (dotted_ne_empty hx l)]
      simp [dotted]

end Node

end Yaml

/-- yaml-cpp: `ss << node` and `YAML::Load`, which may throw. -/
structure YamlCpp (N : Type) where
  emit : N → String
  load : String → Option N

namespace YamlCpp

open Yaml (Node Nodes)

section

variable {N : Type} [Nodes N] (yaml : YamlCpp N)

/-- The text of a node variable after calls of `push_back`. The variable is not even null
before the first one. -/
def emitElements : List N → String
  | [] => ""
  | nodes => yaml.emit (Nodes.new (.seq nodes))

/-- The text of a node variable after assignments `node[key] = value` to distinct keys. -/
def emitEntries : List (String × N) → String
  | [] => ""
  | es => yaml.emit (Nodes.new (.map (es.map fun e => (Nodes.new (.scalar e.1), e.2))))

end

variable (yaml : YamlCpp Node)

/-- The text is loaded into the node, up to its style. -/
def Reads (text : String) (node : Node) : Prop :=
  ∃ n, yaml.load text = some n ∧ n.plain = node.plain

/-- Loading the emitted node gives the node back. -/
def RoundTrips (node : Node) : Prop :=
  yaml.Reads (yaml.emit node) node

/-- Loading gives every emitted node back, and null for the empty text. -/
structure Faithful : Prop where
  load_emit : ∀ node, yaml.RoundTrips node
  load_empty : yaml.Reads "" .null

variable {yaml}

theorem Faithful.reads_emitElements (hyaml : yaml.Faithful) (nodes : List Node) :
  yaml.Reads (yaml.emitElements nodes) (.ofElements nodes)
  := by
  cases nodes with
  | nil => apply hyaml.load_empty
  | cons n nodes => apply hyaml.load_emit

/-- yaml-cpp on a single document. -/
def ofDocument (text : String) (node : Node) : YamlCpp Node where
  emit _ := text
  load v := if v = text then some node else none

end YamlCpp

end WbServer
