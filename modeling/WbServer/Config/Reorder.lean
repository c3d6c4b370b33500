import WbServer.Config.Load

/-!
# The order of map entries

Two documents that differ only in the order of the entries of their maps have the same
nodes below the same keys, up to such differences, in another order. A variable depends on
the nodes with its name, of which there is at most one if the paths of the document are
distinct. `Config.loadFromYaml_reordered` concludes that the documents load the same
values.
-/

/-- Related multisets stay related if related elements are both kept or both removed. -/
theorem Multiset.Rel.filter {α β : Type*} {r : α → β → Prop} {s : Multiset α} {t : Multiset β}
    (h : Multiset.Rel r s t) {p : α → Prop} {q : β → Prop} [DecidablePred p] [DecidablePred q]
    (hpq : ∀ a b, r a b → (p a ↔ q b)) :
  Multiset.Rel r (s.filter p) (t.filter q)
  := by
  induction h with
  | zero => exact Multiset.Rel.zero
  | @cons a b s t hab _ ih =>
      by_cases hp : p a
      · have hq : q b := (hpq a b hab).mp hp
        rw [Multiset.filter_cons_of_pos s hp, Multiset.filter_cons_of_pos t hq]
        apply Multiset.Rel.cons hab ih
      · have hq : ¬ q b := fun hq => hp ((hpq a b hab).mpr hq)
        rw [Multiset.filter_cons_of_neg s hp, Multiset.filter_cons_of_neg t hq]
        apply ih

namespace WbServer

namespace Yaml.Node

/-! ### Documents that differ in the order of entries -/

/-- The entries of one map of the document are put in another order. -/
inductive Reorder : Node → Node → Prop where
  | entries {es es' : List (Node × Node)} (style : Style) (h : es.Perm es') :
      Reorder (map es style) (map es' style)
  | key (es₁ es₂ : List (Node × Node)) (style : Style) {k k' : Node} (v : Node)
      (h : Reorder k k') :
      Reorder (map (es₁ ++ (k, v) :: es₂) style) (map (es₁ ++ (k', v) :: es₂) style)
  | value (es₁ es₂ : List (Node × Node)) (style : Style) (k : Node) {v v' : Node}
      (h : Reorder v v') :
      Reorder (map (es₁ ++ (k, v) :: es₂) style) (map (es₁ ++ (k, v') :: es₂) style)
  | element (nodes₁ nodes₂ : List Node) (style : Style) {n n' : Node} (h : Reorder n n') :
      Reorder (seq (nodes₁ ++ n :: nodes₂) style) (seq (nodes₁ ++ n' :: nodes₂) style)

/-- The documents differ only in the order of entries inside maps, at any depth. -/
def Reordered : Node → Node → Prop :=
  Relation.ReflTransGen Reorder

/-- The keys are the same, and the nodes differ only in the order of entries. -/
def Alike (p q : List String × Node) : Prop :=
  p.1 = q.1 ∧ Reordered p.2 q.2

theorem Alike.refl (p : List String × Node) :
  Alike p p
  := ⟨rfl, Relation.ReflTransGen.refl⟩

theorem Alike.trans {p q r : List String × Node} (h : Alike p q) (h' : Alike q r) :
  Alike p r
  := ⟨h.1.trans h'.1, Relation.ReflTransGen.trans h.2 h'.2⟩

instance : IsTrans (List String × Node) Alike := ⟨fun _ _ _ => Alike.trans⟩

/-- A key that is reordered is no scalar. -/
theorem Reorder.scalarText_eq {k k' : Node} (h : Reorder k k') :
  k.scalarText = k'.scalarText
  := by
  cases h <;> rfl

theorem preorderEntries_eq_flatMap (keys : List String) (es : List (Node × Node)) :
  preorderEntries keys es = es.flatMap fun e => preorder (keys ++ [e.1.scalarText]) e.2
  := by
  induction es with
  | nil => rfl
  | cons e es ih => rw [preorderEntries, List.flatMap_cons, ih]

theorem preorder_map (keys : List String) (es : List (Node × Node)) (style : Style) :
  preorder keys (map es style) =
    (keys, map es style) :: es.flatMap fun e => preorder (keys ++ [e.1.scalarText]) e.2
  := by
  rw [preorder, preorderEntries_eq_flatMap]

theorem rel_alike_refl (s : Multiset (List String × Node)) :
  Multiset.Rel Alike s s
  := Multiset.rel_refl_of_refl_on fun p _ => Alike.refl p

/-- Maps of which the nodes below are alike. -/
theorem rel_preorder_map {es es' : List (Node × Node)} {style : Style}
    (h : Reorder (map es style) (map es' style)) (keys : List String)
    (hnodes : Multiset.Rel Alike
      (es.flatMap fun e => preorder (keys ++ [e.1.scalarText]) e.2 : List _)
      (es'.flatMap fun e => preorder (keys ++ [e.1.scalarText]) e.2 : List _)) :
  Multiset.Rel Alike (preorder keys (map es style)) (preorder keys (map es' style))
  := by
  have hroot : Alike (keys, map es style) (keys, map es' style) :=
    ⟨rfl, Relation.ReflTransGen.single h⟩
  rw [preorder_map, preorder_map]
  apply Multiset.Rel.cons hroot hnodes

/-- Reordering one map keeps the nodes with their keys, up to reordering. -/
theorem Reorder.preorder {n n' : Node} (h : Reorder n n') (keys : List String) :
  Multiset.Rel Alike (n.preorder keys) (n'.preorder keys)
  := by
  induction h generalizing keys with
  | entries style h =>
      apply rel_preorder_map (.entries style h)
      rw [Multiset.coe_eq_coe.mpr (h.flatMap_right _)]
      apply rel_alike_refl
  | key es₁ es₂ style v h ih =>
      apply rel_preorder_map (.key es₁ es₂ style v h)
      simp only [List.flatMap_append, List.flatMap_cons, h.scalarText_eq]
      apply rel_alike_refl
  | value es₁ es₂ style k h ih =>
      apply rel_preorder_map (.value es₁ es₂ style k h)
      simp only [List.flatMap_append, List.flatMap_cons, ← Multiset.coe_add]
      apply (rel_alike_refl _).add
      apply (ih _).add (rel_alike_refl _)
  | element nodes₁ nodes₂ style h ih =>
      apply Multiset.Rel.cons ⟨rfl, .single (.element nodes₁ nodes₂ style h)⟩ Multiset.Rel.zero

/-- Documents that differ in the order of entries have the same nodes below the same keys,
up to such differences. -/
theorem Reordered.preorder {n n' : Node} (h : Reordered n n') (keys : List String) :
  Multiset.Rel Alike (n.preorder keys) (n'.preorder keys)
  := by
  induction h with
  | refl => apply rel_alike_refl
  | tail _ h ih => apply Multiset.Rel.trans Alike ih (h.preorder keys)

end Yaml.Node

open Yaml (Node)
open Yaml.Node (Reordered Alike)

namespace Config

variable {R : Registry} {W ε : Type}

/-! ### The nodes of a variable -/

/-- The node is converted for the variable. -/
def Names (R : Registry) (name : String) (i : String × Node) : Prop :=
  i.1 ≠ "" ∧ toLower i.1 = name ∧ R.registered name = true

instance (name : String) : DecidablePred (Names R name) :=
  fun _ => inferInstanceAs (Decidable (_ ∧ _ ∧ _))

/-- The value of a variable behind the conversion of a node. -/
def stored (R : Registry) (emit : Node → String) (name : String) (old : R.T name)
    (i : String × Node) : R.T name :=
  ConfigVar.stored (R.fromStr name) (R.eq name) old (text emit i.2)

theorem loadNode_of_names {c : Config R W ε} (hc : c.NoThrow) (emit : Node → String)
    {name : String} {i : String × Node} (h : Names R name i) :
  ((loadNode emit c i).vars name).mVal = stored R emit name (c.vars name).mVal i
  := by
  obtain ⟨hpath, rfl, hregistered⟩ := h
  have hvalue := (hc (toLower i.1)).fromString_mVal (R.fromStr (toLower i.1)) (R.eq (toLower i.1))
    (text emit i.2) c.world
  simp only [loadNode, if_neg hpath, if_pos hregistered, Function.update_self, stored, hvalue]

theorem loadNode_of_not_names (c : Config R W ε) (emit : Node → String) {name : String}
    {i : String × Node} (h : ¬ Names R name i) :
  (loadNode emit c i).vars name = c.vars name
  := by
  simp only [loadNode]
  split
  case isTrue => rfl
  case isFalse hpath =>
    split
    case isTrue hregistered =>
      have hne : name ≠ toLower i.1 := by
        rintro rfl
        apply h ⟨hpath, rfl, hregistered⟩
      simp only [Function.update_of_ne hne]
    case isFalse => rfl

/-- The loop over the list updates a variable at the nodes with its name. -/
theorem foldl_stored (emit : Node → String) {c : Config R W ε} (hc : c.NoThrow) (name : String)
    (l : List (String × Node)) :
  ((l.foldl (loadNode emit) c).vars name).mVal =
    (l.filter fun i => Names R name i).foldl (stored R emit name) (c.vars name).mVal
  := by
  induction l generalizing c with
  | nil => rfl
  | cons i l ih =>
      rw [List.foldl_cons, ih (hc.loadNode emit i)]
      by_cases hi : Names R name i
      · rw [loadNode_of_names hc emit hi, List.filter_cons_of_pos (by simpa using hi)]
        rfl
      · rw [loadNode_of_not_names c emit hi, List.filter_cons_of_neg (by simpa using hi)]

/-! ### Documents with distinct paths -/

/-- The lowercased dotted paths of the nodes are pairwise distinct. -/
def Distinct (root : Node) : Prop :=
  ((root.preorder []).map fun p => toLower (Node.dottedPath p.1)).Nodup

/-- The entry of a node in the flattened document. -/
def entry (p : List String × Node) : String × Node :=
  (Node.dottedPath p.1, p.2)

/-- At most one node has the name of a variable. -/
theorem Distinct.filter_le {root : Node} (h : Distinct root) (name : String) :
  (root.preorder []).filter (fun p => Names R name (entry p)) = [] ∨
    ∃ p, (root.preorder []).filter (fun p => Names R name (entry p)) = [p]
  := by
  have hnodup : (((root.preorder []).filter fun p => Names R name (entry p)).map
      fun p => toLower (Node.dottedPath p.1)).Nodup :=
    h.sublist (List.filter_sublist.map _)
  have hname : ∀ p ∈ (root.preorder []).filter (fun p => Names R name (entry p)),
      toLower (Node.dottedPath p.1) = name := by
    intro p hp
    have hp' : Names R name (entry p) := by simpa using List.of_mem_filter hp
    apply hp'.2.1
  cases hl : (root.preorder []).filter fun p => Names R name (entry p) with
  | nil => exact .inl rfl
  | cons p l =>
      rw [hl] at hnodup hname
      cases l with
      | nil => exact .inr ⟨p, rfl⟩
      | cons q l =>
          have hpq := (hname p List.mem_cons_self).trans
            (hname q (List.mem_cons_of_mem p List.mem_cons_self)).symm
          simp [hpq] at hnodup

/-- `load_from_yaml` updates a variable at the nodes of the document with its name. -/
theorem loadFromYaml_stored (emit : Node → String) (root : Node) {c : Config R W ε}
    (hc : c.NoThrow) (name : String) :
  ((loadFromYaml emit root c).vars name).mVal =
    ((root.preorder []).filter fun p => Names R name (entry p)).foldl
      (fun m p => stored R emit name m (entry p)) (c.vars name).mVal
  := by
  have hlist : listAllMenmber "" root = (root.preorder []).map entry := listAllMenmber_eq [] root
  rw [loadFromYaml, foldl_stored emit hc, hlist, List.filter_map, List.foldl_map]
  rfl

/-- Documents that differ only in the order of entries inside maps, and whose nodes have
distinct paths, leave every variable with the same value. -/
theorem loadFromYaml_reordered (emit : Node → String)
    (hfromStr : ∀ name, R.registered name = true → ∀ n n', Reordered n n' →
      R.fromStr name (text emit n) = R.fromStr name (text emit n'))
    {root root' : Node} (hdistinct : Distinct root) (h : Reordered root root')
    {c : Config R W ε} (hc : c.NoThrow) (name : String) :
  ((loadFromYaml emit root c).vars name).mVal = ((loadFromYaml emit root' c).vars name).mVal
  := by
  have hnodes : Multiset.Rel Alike
      ((root.preorder []).filter fun p => Names R name (entry p) : List _)
      ((root'.preorder []).filter fun p => Names R name (entry p) : List _) := by
    rw [← Multiset.filter_coe, ← Multiset.filter_coe]
    apply (h.preorder []).filter
    intro p q hpq
    rw [entry, entry, hpq.1]
    exact Iff.rfl
  rw [loadFromYaml_stored emit root hc, loadFromYaml_stored emit root' hc]
  obtain hnone | ⟨p, hone⟩ := hdistinct.filter_le (R := R) name
  · rw [hnone, Multiset.coe_nil, Multiset.rel_zero_left, Multiset.coe_eq_zero] at hnodes
    rw [hnone, hnodes]
  · rw [hone, ← Multiset.cons_coe, Multiset.rel_cons_left] at hnodes
    obtain ⟨q, s, hpq, hs, hone'⟩ := hnodes
    obtain rfl : s = 0 := by simpa using hs
    have hone' : (root'.preorder []).filter (fun p => Names R name (entry p)) = [q] := by
      simpa using hone'
    have hp : Names R name (entry p) := by
      have hmem : p ∈ (root.preorder []).filter fun p => Names R name (entry p) := by
        rw [hone]
        exact List.mem_cons_self
      simpa using List.of_mem_filter hmem
    rw [hone, hone']
    simp only [List.foldl_cons, List.foldl_nil, stored, ConfigVar.stored, entry]
    rw [hfromStr name hp.2.2 p.2 q.2 hpq.2]

/-- The document `a: {b: 1, x: 2}`, `c: 5`. -/
def sorted : Node :=
  .map [(.scalar "a", .map [(.scalar "b", .scalar "1"), (.scalar "x", .scalar "2")]),
    (.scalar "c", .scalar "5")]

/-- The document `c: 5`, `a: {x: 2, b: 1}`. -/
def shuffled : Node :=
  .map [(.scalar "c", .scalar "5"),
    (.scalar "a", .map [(.scalar "x", .scalar "2"), (.scalar "b", .scalar "1")])]

theorem sorted_reordered_shuffled :
  Reordered sorted shuffled
  := by
  have hinner : Node.Reorder (.map [(.scalar "b", .scalar "1"), (.scalar "x", .scalar "2")])
      (.map [(.scalar "x", .scalar "2"), (.scalar "b", .scalar "1")]) :=
    .entries .block (List.Perm.swap _ _ _)
  have hvalue := Node.Reorder.value [] [(.scalar "c", .scalar "5")] .block (.scalar "a") hinner
  apply (Relation.ReflTransGen.single hvalue).tail
  apply Node.Reorder.entries .block (List.Perm.swap _ _ _)

theorem loadFromYaml_reordered_shuffled :
  let c := loadFromYaml (fun _ => "") sorted counting
  let c' := loadFromYaml (fun _ => "") shuffled counting
  (c.vars "a.b").mVal = (c'.vars "a.b").mVal
  := by
  have hfromStr : ∀ name, twoVariables.registered name = true → ∀ n n', Reordered n n' →
      twoVariables.fromStr name (text (fun _ => "") n) =
        twoVariables.fromStr name (text (fun _ => "") n') := by
    intro name _ n n' h
    have htext : text (fun _ => "") n = text (fun _ => "") n' := by
      induction h with
      | refl => rfl
      | tail _ h ih =>
          rw [ih]
          cases h <;> rfl
    rw [htext]
  have hc : counting.NoThrow := by
    intro name c hc old new w
    obtain rfl := List.mem_singleton.mp hc
    rfl
  have hdistinct : Distinct sorted := by
    have hpaths : ((sorted.preorder []).map fun p => toLower (Node.dottedPath p.1)) =
        ["", "a", "a.b", "a.x", "c"] := rfl
    rw [Distinct, hpaths]
    decide
  apply loadFromYaml_reordered _ hfromStr hdistinct sorted_reordered_shuffled hc "a.b"

end Config

end WbServer
