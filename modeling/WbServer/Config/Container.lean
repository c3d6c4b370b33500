import Mathlib.Data.String.Basic
import WbServer.Base.HashTable
import WbServer.Base.OrderedSet
import WbServer.Yaml

/-!
# `LexicalCast` of containers

The text of a container is composed of the texts of its elements: each is loaded into a node,
and the node of the container is emitted. Back, each node of the container is emitted and
converted. A container without elements has the empty text, but `~` as an element of another
container. `Codec.roundTrip` shows that the conversions are inverse for all nestings of
containers, given that they are for the base types.
-/

namespace WbServer

open Yaml (Node Nodes Shape)

namespace YamlCpp

variable {N : Type} [Nodes N]

/-- The nodes are emitted alike, and a key that is one of them is found like the other. -/
def Looks (yaml : YamlCpp N) (n n' : N) : Prop :=
  yaml.emit n = yaml.emit n' ∧ (Nodes.shape n).key = (Nodes.shape n').key

/-- What the conversions assume of yaml-cpp: the empty text loads as null, and what is emitted
for a node that has been made or loaded gives the node back, as far as it can be seen. -/
structure Lawful (yaml : YamlCpp N) : Prop where
  load_empty : ∃ n, yaml.load "" = some n ∧ Nodes.shape n = .null
  load_new : ∀ s, ∃ n, yaml.load (yaml.emit (Nodes.new s)) = some n ∧
    Shape.Rel yaml.Looks (Nodes.shape n) s
  load_emit : ∀ v n, yaml.load v = some n → ∃ n', yaml.load (yaml.emit n) = some n' ∧
    yaml.emit n' = yaml.emit n ∧ Shape.Rel yaml.Looks (Nodes.shape n') (Nodes.shape n)

end YamlCpp

/-- `LexicalCast<T, std::string>` and `LexicalCast<std::string, T>`, which may throw, and what
`==` compares of a `T`. -/
structure Codec (T V : Type) where
  toStr : T → Option String
  fromStr : String → Option T
  view : T → V

namespace Codec

variable {T V S U : Type}

/-! ### The code -/

/-- A base type: `boost::lexical_cast`. -/
def base (toStr : T → String) (fromStr : String → Option T) : Codec T T where
  toStr x := some (toStr x)
  fromStr := fromStr
  view x := x

variable {N : Type} [Nodes N] (yaml : YamlCpp N)

/-- The texts of `node[i]` for `i` below `node.size()`. An undefined node has no text. -/
def elementTexts (node : N) : List String :=
  match Nodes.shape node with
  | .seq nodes => nodes.map yaml.emit
  | .map es => (List.range es.length).map fun i =>
      ((Yaml.lookup (toString i) es).map yaml.emit).getD ""
  | _ => []

/-- The keys and the texts of the values that an iteration over the node finds. The items of
a sequence have no value, and throw. -/
def entryTexts (node : N) : Option (List (String × String)) :=
  match Nodes.shape node with
  | .map es => some (es.map fun e => ((Nodes.shape e.1).scalarText, yaml.emit e.2))
  | .seq (_ :: _) => none
  | _ => some []

/-- The conversions of a container of elements, given its iteration and its construction. -/
def ofElements (C : Codec T V) (toList : S → List T) (ofList : List T → S) (view : S → U) :
    Codec S U where
  toStr s :=
    ((toList s).mapM fun x => (C.toStr x).bind yaml.load).map yaml.emitElements
  fromStr v :=
    (yaml.load v).bind fun node => ((elementTexts yaml node).mapM C.fromStr).map ofList
  view := view

/-- The conversions of a container of entries. -/
def ofEntries (C : Codec T V) (toList : S → List (String × T)) (ofList : List (String × T) → S)
    (view : S → U) : Codec S U where
  toStr s :=
    ((toList s).mapM fun e => ((C.toStr e.2).bind yaml.load).map fun n => (e.1, n)).map
      yaml.emitEntries
  fromStr v :=
    (yaml.load v).bind fun node => (entryTexts yaml node).bind fun es =>
      (es.mapM fun e => (C.fromStr e.2).map fun x => (e.1, x)).map ofList
  view := view

/-- The key and the value of an entry, up to `==`. -/
def viewEntry (C : Codec T V) (e : String × T) : String × V :=
  (e.1, C.view e.2)

/-- `std::vector<T>`. -/
def vector (C : Codec T V) : Codec (List T) (List V) :=
  C.ofElements yaml (fun s => s) (fun l => l) (List.map C.view)

/-- `std::list<T>`. -/
def list (C : Codec T V) : Codec (List T) (List V) :=
  C.ofElements yaml (fun s => s) (fun l => l) (List.map C.view)

/-- `std::set<T>`, ordered by `key`. -/
def set {β : Type} [LinearOrder β] (C : Codec T V) (key : V → β) :
    Codec (OrderedSet fun x => key (C.view x)) (List V) :=
  C.ofElements yaml OrderedSet.toList (List.foldl OrderedSet.insert (OrderedSet.empty _))
    fun s => s.toList.map C.view

/-- `std::unordered_set<T>`. -/
def unorderedSet [DecidableEq V] (C : Codec T V) (order : HashOrder T) :
    Codec (HashTable C.view) (Multiset V) :=
  C.ofElements yaml HashTable.toList (List.foldl (HashTable.insert order) (HashTable.empty _))
    fun s => s.toList.map C.view

/-- `std::map<std::string, T>`. -/
def map (C : Codec T V) :
    Codec (OrderedSet (Prod.fst : String × T → String)) (List (String × V)) :=
  C.ofEntries yaml OrderedSet.toList (List.foldl OrderedSet.insert (OrderedSet.empty _))
    fun s => s.toList.map C.viewEntry

/-- `std::unordered_map<std::string, T>`. -/
def unorderedMap (C : Codec T V) (order : HashOrder (String × T)) :
    Codec (HashTable (Prod.fst : String × T → String)) (Multiset (String × V)) :=
  C.ofEntries yaml HashTable.toList (List.foldl (HashTable.insert order) (HashTable.empty _))
    fun s => s.toList.map C.viewEntry

/-! ### Conversion of all elements -/

/-- If each element is converted there and back, then so is a list. -/
theorem mapM_roundTrip {α β γ δ : Type} {f : α → Option β} (text : β → γ) (g : γ → Option α)
    {view : α → δ}
    (h : ∀ x, ∃ n x', f x = some n ∧ g (text n) = some x' ∧ view x' = view x) (l : List α) :
  ∃ nodes l', l.mapM f = some nodes ∧ (nodes.map text).mapM g = some l' ∧
    l'.map view = l.map view
  := by
  induction l with
  | nil =>
      use [], []
      simp
  | cons x l ih =>
      obtain ⟨n, x', hf, hg, hview⟩ := h x
      obtain ⟨nodes, l', hfs, hgs, hviews⟩ := ih
      use n :: nodes, x' :: l'
      simp [hf, hg, hview, hfs, hgs, hviews]

/-! ### What the conversions see of a node -/

variable {yaml}

/-- Maps with entries that look alike have values that look alike. -/
theorem map_emit_lookup {key : String} {es es' : List (N × N)}
    (h : List.Forall₂ (fun e e' => yaml.Looks e.1 e'.1 ∧ yaml.Looks e.2 e'.2) es es') :
  (Yaml.lookup key es).map yaml.emit = (Yaml.lookup key es').map yaml.emit
  := by
  induction h with
  | nil => rfl
  | cons he _ ih =>
      rw [Yaml.lookup, Yaml.lookup, he.1.2]
      split
      · rw [Option.map_some, Option.map_some, he.2.1]
      · apply ih

theorem elementTexts_congr {n n' : N}
    (h : Shape.Rel yaml.Looks (Nodes.shape n) (Nodes.shape n')) :
  elementTexts yaml n = elementTexts yaml n'
  := by
  unfold elementTexts
  generalize Nodes.shape n = s at h
  generalize Nodes.shape n' = s' at h
  cases h with
  | seq h => exact List.forall₂_eq_eq_eq ▸ (List.forall₂_map_left_iff.mpr
      (List.forall₂_map_right_iff.mpr (h.imp fun _ _ h => h.1)))
  | map h => simp only [h.length_eq, map_emit_lookup h]
  | _ => rfl

theorem entryTexts_congr {n n' : N}
    (h : Shape.Rel yaml.Looks (Nodes.shape n) (Nodes.shape n')) :
  entryTexts yaml n = entryTexts yaml n'
  := by
  unfold entryTexts
  generalize Nodes.shape n = s at h
  generalize Nodes.shape n' = s' at h
  cases h with
  | seq h => cases h <;> rfl
  | map h =>
      simp only [Option.some_inj]
      induction h with
      | nil => rfl
      | cons he _ ih =>
          rw [List.map_cons, List.map_cons, ih, Shape.scalarText_eq, he.1.2,
            ← Shape.scalarText_eq, he.2.1]
  | _ => rfl

/-! ### One layer -/

/-- An element survives: `FromStr(emit(Load(ToStr(x))))` equals `x`. -/
def Survives (yaml : YamlCpp N) (C : Codec T V) : Prop :=
  ∀ x, ∃ n x', (C.toStr x).bind yaml.load = some n ∧ C.fromStr (yaml.emit n) = some x' ∧
    C.view x' = C.view x

/-- A container is converted back from every text that loads like its own. -/
def Composes (yaml : YamlCpp N) (C : Codec T V) : Prop :=
  ∀ x, ∃ text n x', C.toStr x = some text ∧ yaml.load text = some n ∧
    (∀ v n', yaml.load v = some n' →
      Shape.Rel yaml.Looks (Nodes.shape n') (Nodes.shape n) → C.fromStr v = some x') ∧
    C.view x' = C.view x

/-- A container survives as an element. -/
theorem Composes.survives (hyaml : yaml.Lawful) {C : Codec T V} (h : C.Composes yaml) :
  C.Survives yaml
  := by
  intro x
  obtain ⟨text, n, x', htext, hload, hfrom, hview⟩ := h x
  obtain ⟨n', hn', -, hrel⟩ := hyaml.load_emit text n hload
  use n, x'
  constructor
  · rw [htext, Option.bind_some, hload]
  · use hfrom _ n' hn' hrel

/-- The nodes of a container are found again. -/
theorem load_emitElements (hyaml : yaml.Lawful) (nodes : List N) :
  ∃ n, yaml.load (yaml.emitElements nodes) = some n ∧
    elementTexts yaml n = nodes.map yaml.emit
  := by
  cases nodes with
  | nil =>
      obtain ⟨n, hload, hnull⟩ := hyaml.load_empty
      use n, hload
      rw [elementTexts, hnull]
      rfl
  | cons m nodes =>
      obtain ⟨n, hload, hrel⟩ := hyaml.load_new (.seq (m :: nodes))
      use n, hload
      rw [← Nodes.shape_new (Shape.seq _)] at hrel
      rw [elementTexts_congr hrel, elementTexts, Nodes.shape_new]

theorem load_emitEntries (hyaml : yaml.Lawful) (es : List (String × N)) :
  ∃ n, yaml.load (yaml.emitEntries es) = some n ∧
    entryTexts yaml n = some (es.map fun e => (e.1, yaml.emit e.2))
  := by
  cases es with
  | nil =>
      obtain ⟨n, hload, hnull⟩ := hyaml.load_empty
      use n, hload
      rw [entryTexts, hnull]
      rfl
  | cons e es =>
      obtain ⟨n, hload, hrel⟩ := hyaml.load_new
        (.map ((e :: es).map fun e => (Nodes.new (.scalar e.1), e.2)))
      use n, hload
      rw [← Nodes.shape_new (Shape.map _)] at hrel
      rw [entryTexts_congr hrel, entryTexts, Nodes.shape_new]
      simp [Nodes.shape_new, Shape.scalarText, Function.comp_def]

section Layer

variable (hyaml : yaml.Lawful) {C : Codec T V} (hC : C.Survives yaml)
include hyaml hC

/-- A container whose elements survive, if it is constructed again from elements with equal
values. -/
theorem ofElements_composes {toList : S → List T} {ofList : List T → S} {view : S → U}
    (hof : ∀ s l, l.map C.view = (toList s).map C.view → view (ofList l) = view s) :
  (C.ofElements yaml toList ofList view).Composes yaml
  := by
  intro s
  obtain ⟨nodes, l, hnodes, hl, hview⟩ := mapM_roundTrip yaml.emit C.fromStr hC (toList s)
  obtain ⟨n, hload, htexts⟩ := load_emitElements hyaml nodes
  use yaml.emitElements nodes, n, ofList l
  constructor
  · simp [ofElements, hnodes]
  · use hload
    constructor
    · intro v n' hv hrel
      simp [ofElements, hv, elementTexts_congr hrel, htexts, hl]
    · apply hof s l hview

/-- A container whose values survive, if it is constructed again from entries with the same
keys and equal values. -/
theorem ofEntries_composes {toList : S → List (String × T)} {ofList : List (String × T) → S}
    {view : S → U}
    (hof : ∀ s l, l.map C.viewEntry = (toList s).map C.viewEntry → view (ofList l) = view s) :
  (C.ofEntries yaml toList ofList view).Composes yaml
  := by
  intro s
  have hentry : ∀ e : String × T, ∃ (n : String × N) (e' : String × T),
      (((C.toStr e.2).bind yaml.load).map fun n => (e.1, n)) = some n ∧
      ((C.fromStr (yaml.emit n.2)).map fun x => (n.1, x)) = some e' ∧
      C.viewEntry e' = C.viewEntry e := by
    intro e
    obtain ⟨n, x', hn, hx', hview⟩ := hC e.2
    use (e.1, n), (e.1, x')
    simp [hn, hx', viewEntry, hview]
  obtain ⟨nodes, l, hnodes, hl, hview⟩ := mapM_roundTrip
    (fun e : String × N => (e.1, yaml.emit e.2))
    (fun e : String × String => (C.fromStr e.2).map fun x => (e.1, x)) hentry (toList s)
  obtain ⟨n, hload, htexts⟩ := load_emitEntries hyaml nodes
  use yaml.emitEntries nodes, n, ofList l
  constructor
  · simp only [ofEntries, hnodes, Option.map_some]
  · use hload
    constructor
    · intro v n' hv hrel
      simp [ofEntries, hv, entryTexts_congr hrel, htexts, hl]
    · apply hof s l hview

theorem vector_composes :
  (C.vector yaml).Composes yaml
  := ofElements_composes hyaml hC fun _ _ h => h

theorem list_composes :
  (C.list yaml).Composes yaml
  := ofElements_composes hyaml hC fun _ _ h => h

theorem set_composes {β : Type} [LinearOrder β] (key : V → β) :
  (C.set yaml key).Composes yaml
  := by
  apply ofElements_composes hyaml hC
  intro s l h
  have hkeys : l.map (fun x => key (C.view x)) = s.toList.map fun x => key (C.view x) := by
    simpa [Function.comp_def] using congrArg (List.map key) h
  have hsorted : l.Pairwise fun x y => key (C.view x) < key (C.view y) := by
    have hs := s.sorted
    rw [← List.pairwise_map (f := fun x => key (C.view x)) (R := (· < ·))] at hs ⊢
    rwa [hkeys]
  rw [OrderedSet.toList_foldl_insert_empty hsorted, h]

theorem unorderedSet_composes [DecidableEq V] (order : HashOrder T) :
  (C.unorderedSet yaml order).Composes yaml
  := by
  apply ofElements_composes hyaml hC
  intro s l h
  have hnodup : (l.map C.view).Nodup := by
    rw [h]
    apply s.nodup
  rw [Multiset.coe_eq_coe, ← h]
  apply (HashTable.foldl_insert_empty_perm order hnodup).map

theorem map_composes :
  (C.map yaml).Composes yaml
  := by
  apply ofEntries_composes hyaml hC
  intro s l h
  have hkeys : l.map Prod.fst = s.toList.map Prod.fst := by
    simpa [Function.comp_def, viewEntry] using congrArg (List.map Prod.fst) h
  have hsorted : l.Pairwise fun x y => x.1 < y.1 := by
    have hs := s.sorted
    rw [← List.pairwise_map (f := Prod.fst) (R := (· < ·))] at hs ⊢
    rwa [hkeys]
  rw [OrderedSet.toList_foldl_insert_empty hsorted, h]

theorem unorderedMap_composes (order : HashOrder (String × T)) :
  (C.unorderedMap yaml order).Composes yaml
  := by
  apply ofEntries_composes hyaml hC
  intro s l h
  have hkeys : l.map Prod.fst = s.toList.map Prod.fst := by
    simpa [Function.comp_def, viewEntry] using congrArg (List.map Prod.fst) h
  have hnodup : (l.map Prod.fst).Nodup := by
    rw [hkeys]
    apply s.nodup
  rw [Multiset.coe_eq_coe, ← h]
  apply (HashTable.foldl_insert_empty_perm order hnodup).map

end Layer

/-! ### All nestings -/

/-- A container of elements with the conversions `C`. -/
inductive Layer (yaml : YamlCpp N) (C : Codec T V) : {S U : Type} → Codec S U → Prop where
  | vector : Layer yaml C (C.vector yaml)
  | list : Layer yaml C (C.list yaml)
  | set {β : Type} [LinearOrder β] (key : V → β) : Layer yaml C (C.set yaml key)
  | unorderedSet [DecidableEq V] (order : HashOrder T) :
      Layer yaml C (C.unorderedSet yaml order)
  | map : Layer yaml C (C.map yaml)
  | unorderedMap (order : HashOrder (String × T)) : Layer yaml C (C.unorderedMap yaml order)

/-- The conversions of a type that is built by containers from base types. -/
inductive Built (yaml : YamlCpp N) : {T V : Type} → Codec T V → Prop where
  | base {T : Type} {toStr : T → String} {fromStr : String → Option T}
      (h : ∀ x, ((yaml.load (toStr x)).bind fun n => fromStr (yaml.emit n)) = some x) :
      Built yaml (base toStr fromStr)
  | container {T V S U : Type} {C : Codec T V} {D : Codec S U} (hC : Built yaml C)
      (hD : Layer yaml C D) : Built yaml D

theorem Layer.composes (hyaml : yaml.Lawful) {C : Codec T V} {D : Codec S U}
    (hD : Layer yaml C D) (hC : C.Survives yaml) :
  D.Composes yaml
  := by
  cases hD with
  | vector => apply vector_composes hyaml hC
  | list => apply list_composes hyaml hC
  | set key => apply set_composes hyaml hC
  | unorderedSet order => apply unorderedSet_composes hyaml hC
  | map => apply map_composes hyaml hC
  | unorderedMap order => apply unorderedMap_composes hyaml hC

/-- Every type built from base types survives as an element. -/
theorem Built.survives (hyaml : yaml.Lawful) {C : Codec T V} (hC : Built yaml C) :
  C.Survives yaml
  := by
  induction hC with
  | base h =>
      intro x
      obtain ⟨n, hn, hx⟩ := Option.bind_eq_some_iff.mp (h x)
      use n, x, hn, hx
  | container _ hD ih => apply (hD.composes hyaml ih).survives hyaml

/-- The text of every container of a built type is converted back to an equal container. -/
theorem roundTrip (hyaml : yaml.Lawful) {C : Codec T V} (hC : Built yaml C) {D : Codec S U}
    (hD : Layer yaml C D) (c : S) :
  ∃ c', (D.toStr c).bind D.fromStr = some c' ∧ D.view c' = D.view c
  := by
  obtain ⟨text, n, c', htext, hload, hfrom, hview⟩ := hD.composes hyaml (hC.survives hyaml) c
  use c'
  have hrefl : Shape.Rel yaml.Looks (Nodes.shape n) (Nodes.shape n) :=
    .refl (fun _ => ⟨rfl, rfl⟩) _
  rw [htext, Option.bind_some]
  use hfrom text n hload hrefl

end Codec

/-! ### Documents with their texts -/

namespace Yaml.Node

/-- Characters, each marked, up to an end mark. -/
def codeChars : List Char → List Char
  | [] => ['.']
  | c :: cs => ',' :: c :: codeChars cs

/-- A mark for the style. -/
def codeStyle : Style → Char
  | .block => 'b'
  | .flow => 'f'

mutual

/-- The characters of a made up text. -/
def code : Node → List Char
  | null => ['n']
  | scalar text => 's' :: codeChars text.toList
  | seq nodes style => 'q' :: codeStyle style :: codeElements nodes
  | map es style => 'm' :: codeStyle style :: codeEntries es

/-- The characters of the elements of a sequence. -/
def codeElements : List Node → List Char
  | [] => ['.']
  | n :: nodes => ',' :: (code n ++ codeElements nodes)

/-- The characters of the entries of a map. -/
def codeEntries : List (Node × Node) → List Char
  | [] => ['.']
  | (k, v) :: es => ',' :: (code k ++ (code v ++ codeEntries es))

end

theorem codeStyle_inj {style style' : Style} (h : codeStyle style = codeStyle style') :
  style = style'
  := by
  cases style <;> cases style' <;> first | rfl | exact absurd h (by decide)

theorem codeChars_append {cs cs' r r' : List Char}
    (h : codeChars cs ++ r = codeChars cs' ++ r') :
  cs = cs' ∧ r = r'
  := by
  induction cs generalizing cs' with
  | nil =>
      cases cs' with
      | nil => simpa [codeChars] using h
      | cons c' cs' => simp [codeChars] at h
  | cons c cs ih =>
      cases cs' with
      | nil => simp [codeChars] at h
      | cons c' cs' =>
          simp only [codeChars, List.cons_append, List.cons.injEq, true_and] at h
          obtain ⟨rfl, h⟩ := h
          obtain ⟨rfl, hr⟩ := ih h
          use rfl

mutual

/-- Where a text ends is seen from the text. -/
theorem code_append : ∀ (n n' : Node) {r r' : List Char},
    code n ++ r = code n' ++ r' → n = n' ∧ r = r'
  | null, n', r, r', h => by
      cases n' with
      | null => simpa [code] using h
      | _ => simp [code] at h
  | scalar text, n', r, r', h => by
      cases n' with
      | scalar text' =>
          simp only [code, List.cons_append, List.cons.injEq, true_and] at h
          obtain ⟨htext, hr⟩ := codeChars_append h
          use congrArg scalar (String.toList_injective htext)
      | _ => simp [code] at h
  | seq nodes style, n', r, r', h => by
      cases n' with
      | seq nodes' style' =>
          simp only [code, List.cons_append, List.cons.injEq, true_and] at h
          obtain ⟨hnodes, hr⟩ := codeElements_append nodes nodes' h.2
          rw [hnodes, codeStyle_inj h.1]
          use rfl
      | _ => simp [code] at h
  | map es style, n', r, r', h => by
      cases n' with
      | map es' style' =>
          simp only [code, List.cons_append, List.cons.injEq, true_and] at h
          obtain ⟨hes, hr⟩ := codeEntries_append es es' h.2
          rw [hes, codeStyle_inj h.1]
          use rfl
      | _ => simp [code] at h

theorem codeElements_append : ∀ (nodes nodes' : List Node) {r r' : List Char},
    codeElements nodes ++ r = codeElements nodes' ++ r' → nodes = nodes' ∧ r = r'
  | [], nodes', r, r', h => by
      cases nodes' with
      | nil => simpa [codeElements] using h
      | cons n' nodes' => simp [codeElements] at h
  | n :: nodes, nodes', r, r', h => by
      cases nodes' with
      | nil => simp [codeElements] at h
      | cons n' nodes' =>
          simp only [codeElements, List.cons_append, List.cons.injEq, true_and,
            List.append_assoc] at h
          obtain ⟨hn, h⟩ := code_append n n' h
          obtain ⟨hnodes, hr⟩ := codeElements_append nodes nodes' h
          rw [hn, hnodes]
          use rfl

theorem codeEntries_append : ∀ (es es' : List (Node × Node)) {r r' : List Char},
    codeEntries es ++ r = codeEntries es' ++ r' → es = es' ∧ r = r'
  | [], es', r, r', h => by
      cases es' with
      | nil => simpa [codeEntries] using h
      | cons e' es' => simp [codeEntries] at h
  | (k, v) :: es, es', r, r', h => by
      cases es' with
      | nil => simp [codeEntries] at h
      | cons e' es' =>
          obtain ⟨k', v'⟩ := e'
          simp only [codeEntries, List.cons_append, List.cons.injEq, true_and,
            List.append_assoc] at h
          obtain ⟨hk, h⟩ := code_append k k' h
          obtain ⟨hv, h⟩ := code_append v v' h
          obtain ⟨hes, hr⟩ := codeEntries_append es es' h
          rw [hk, hv, hes]
          use rfl

end

theorem code_inj {n n' : Node} (h : code n = code n') :
  n = n'
  := (code_append n n' (congrArg (· ++ []) h)).1

instance : DecidableEq Node :=
  fun n n' => decidable_of_iff (code n = code n') ⟨code_inj, congrArg code⟩

end Yaml.Node

/-- Some nodes with their texts, which are different and not empty. -/
structure Yaml.Documents where
  texts : List (Node × String)
  nodup : ("" :: texts.map Prod.snd).Nodup

namespace Yaml.Documents

variable (D : Documents)

/-- A text for a node that is not among the documents, which is longer than theirs. -/
def otherText (n : Node) : String :=
  String.ofList (List.replicate ((D.texts.map fun d => d.2.length).sum + 1) '%' ++ n.code)

theorem otherText_inj {n n' : Node} (h : D.otherText n = D.otherText n') :
  n = n'
  := by
  apply Node.code_inj
  simpa [otherText] using congrArg String.toList h

theorem otherText_ne_empty (n : Node) :
  D.otherText n ≠ ""
  := by
  intro h
  simpa [otherText] using congrArg String.toList h

theorem otherText_ne {d : Node × String} (hd : d ∈ D.texts) (n : Node) :
  d.2 ≠ D.otherText n
  := by
  intro h
  have hlength : d.2.length = (D.texts.map fun d => d.2.length).sum + 1 + n.code.length := by
    rw [h, otherText, String.length_ofList, List.length_append, List.length_replicate]
  have hle := List.single_le_sum (by simp) _ (List.mem_map_of_mem (f := fun d => d.2.length) hd)
  omega

/-- The text of a document. -/
def emit (n : Node) : String :=
  match D.texts.find? fun d => d.1 = n with
  | some d => d.2
  | none => D.otherText n

open Classical in
/-- The document with a text. -/
noncomputable def load (text : String) : Option Node :=
  if text = "" then some .null
  else
    match D.texts.find? fun d => d.2 = text with
    | some d => some d.1
    | none => if h : ∃ n, D.otherText n = text then some h.choose else none

/-- yaml-cpp on the documents. -/
noncomputable def yaml : YamlCpp Node where
  emit := D.emit
  load := D.load

theorem load_text {d : Node × String} (hd : d ∈ D.texts) :
  D.load d.2 = some d.1
  := by
  have hfind : D.texts.find? (fun d' => d'.2 = d.2) = some d := by
    cases hfound : D.texts.find? fun d' => d'.2 = d.2 with
    | none => simpa using List.find?_eq_none.mp hfound d hd
    | some d' =>
        have htext : d'.2 = d.2 := by simpa using List.find?_some hfound
        have hmem := List.mem_of_find?_eq_some hfound
        rw [List.inj_on_of_nodup_map (List.nodup_cons.mp D.nodup).2 hmem hd htext]
  have hne : d.2 ≠ "" := by
    intro h
    apply (List.nodup_cons.mp D.nodup).1
    rw [← h]
    apply List.mem_map_of_mem hd
  rw [load, if_neg hne, hfind]

theorem load_otherText (n : Node) :
  D.load (D.otherText n) = some n
  := by
  have hfind : D.texts.find? (fun d => d.2 = D.otherText n) = none := by
    rw [List.find?_eq_none]
    intro d hd htext
    apply D.otherText_ne hd n
    apply of_decide_eq_true htext
  have hn : ∃ n', D.otherText n' = D.otherText n := ⟨n, rfl⟩
  rw [load, if_neg (D.otherText_ne_empty n), hfind]
  simp only [dif_pos hn, D.otherText_inj hn.choose_spec]

/-- Every node is loaded again. -/
theorem load_emit (n : Node) :
  D.load (D.emit n) = some n
  := by
  unfold emit
  split
  case h_1 d hd =>
    have hn : d.1 = n := by simpa using List.find?_some hd
    rw [D.load_text (List.mem_of_find?_eq_some hd), hn]
  case h_2 => apply D.load_otherText

theorem lawful :
  D.yaml.Lawful
  := by
  have hlooks : ∀ s : Shape Node, Shape.Rel D.yaml.Looks s s := .refl fun _ => ⟨rfl, rfl⟩
  constructor
  case load_empty => exact ⟨.null, rfl, rfl⟩
  case load_new =>
    intro s
    use Nodes.new s, D.load_emit _
    rw [Nodes.shape_new]
    apply hlooks
  case load_emit =>
    intro v n _
    use n, D.load_emit n, rfl
    apply hlooks

theorem faithful :
  D.yaml.Faithful
  := by
  constructor
  case load_emit => exact fun n => ⟨n, D.load_emit n, rfl⟩
  case load_empty => exact ⟨.null, rfl, rfl⟩

end Yaml.Documents

namespace Codec

/-- `bool`. -/
def bool : Codec Bool Bool :=
  base (fun b => if b then "1" else "0")
    fun text => if text = "1" then some true else if text = "0" then some false else none

/-- The documents of the conversions of `{"k": {true}, "m": {}}`. -/
def flagDocuments : Yaml.Documents where
  texts :=
    [(.null, "~"), (.scalar "0", "0"), (.scalar "1", "1"), (.seq [.scalar "1"], "- 1"),
      (.map [(.scalar "k", .seq [.scalar "1"]), (.scalar "m", .null)], "k:\n  - 1\nm: ~")]
  nodup := by simp

/-- `std::map<std::string, std::list<bool>>`. -/
noncomputable def flags :
    Codec (OrderedSet (Prod.fst : String × List Bool → String)) (List (String × List Bool)) :=
  (bool.list flagDocuments.yaml).map flagDocuments.yaml

/-- `{"k": {true}, "m": {}}`. -/
def someFlags : OrderedSet (Prod.fst : String × List Bool → String) :=
  ⟨[("k", [true]), ("m", [])], by decide⟩

theorem roundTrip_someFlags :
  flags.toStr someFlags = some "k:\n  - 1\nm: ~" ∧
    ∃ c', (flags.toStr someFlags).bind flags.fromStr = some c' ∧
      flags.view c' = [("k", [true]), ("m", [])]
  := by
  have hbool : Built flagDocuments.yaml bool := by
    apply Built.base
    intro b
    cases b <;> rfl
  have hlist : Built flagDocuments.yaml (bool.list flagDocuments.yaml) := hbool.container .list
  use rfl
  apply roundTrip flagDocuments.lawful hlist .map someFlags

end Codec

end WbServer
