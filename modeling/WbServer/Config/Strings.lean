import WbServer.Config.Container

/-!
# Vectors of strings

An element of a `std::vector<std::string>` is loaded as a document of its own, and what comes
back is the emitted node. So a string survives if and only if it is the text that is emitted
for some loaded node (`Codec.strings_roundTrip_iff`), in block or in flow style; an empty
string comes back as `~`.
-/

namespace WbServer

namespace Codec

/-- `std::string`: `boost::lexical_cast` is the identity. -/
def string : Codec String String :=
  base id some

variable {N : Type} [Yaml.Nodes N] {yaml : YamlCpp N}

/-- The text of a vector is composed of the nodes of its strings. -/
theorem strings_toStr (v : List String) :
  (string.vector yaml).toStr v = (v.mapM yaml.load).map yaml.emitElements
  := by
  have hload : (fun x => (string.toStr x).bind yaml.load) = yaml.load := rfl
  rw [vector, ofElements, hload]

/-- Back, each node becomes the text that is emitted for it. -/
theorem strings_fromStr (hyaml : yaml.Lawful) (nodes : List N) :
  (string.vector yaml).fromStr (yaml.emitElements nodes) = some (nodes.map yaml.emit)
  := by
  obtain ⟨n, hload, htexts⟩ := load_emitElements hyaml nodes
  have hsome : ∀ l : List String, l.mapM string.fromStr = some l := by
    intro l
    induction l with
    | nil => rfl
    | cons x l ih =>
        rw [List.mapM_cons, ih]
        rfl
  simp [vector, ofElements, hload, htexts, hsome]

/-- The strings come back that are emitted for the nodes they are loaded into. -/
theorem strings_roundTrip (hyaml : yaml.Lawful) (v : List String) :
  ((string.vector yaml).toStr v).bind (string.vector yaml).fromStr =
    (v.mapM yaml.load).map (List.map yaml.emit)
  := by
  rw [strings_toStr]
  cases v.mapM yaml.load with
  | none => rfl
  | some nodes => apply strings_fromStr hyaml

/-- A string is the text of the node it is loaded into if and only if it is the text of some
loaded node. -/
theorem emit_load_iff (hyaml : yaml.Lawful) (x : String) :
  (yaml.load x).map yaml.emit = some x ↔ ∃ v n, yaml.load v = some n ∧ x = yaml.emit n
  := by
  constructor
  · intro h
    obtain ⟨n, hn, hx⟩ := Option.map_eq_some_iff.mp h
    exact ⟨x, n, hn, hx.symm⟩
  · rintro ⟨v, n, hn, rfl⟩
    obtain ⟨n', hn', hemit, -⟩ := hyaml.load_emit v n hn
    rw [hn', Option.map_some, hemit]

/-- A vector of strings survives if and only if each string is a text that is emitted for a
loaded node. -/
theorem strings_roundTrip_iff (hyaml : yaml.Lawful) (v : List String) :
  ((string.vector yaml).toStr v).bind (string.vector yaml).fromStr = some v ↔
    ∀ x ∈ v, ∃ text n, yaml.load text = some n ∧ x = yaml.emit n
  := by
  rw [strings_roundTrip hyaml]
  induction v with
  | nil => simp
  | cons x v ih =>
      rw [List.forall_mem_cons, ← emit_load_iff hyaml, ← ih, List.mapM_cons]
      cases yaml.load x with
      | none => simp
      | some n =>
          cases v.mapM yaml.load with
          | none => simp
          | some nodes => simp

/-- Strings in both styles with their nodes, and the text of a vector of them. -/
def stringDocuments : Yaml.Documents where
  texts :=
    [(.scalar "0", "0"), (.null, "~"), (.seq [.scalar "1", .scalar "2"] .flow, "[1, 2]"),
      (.seq [.scalar "1", .scalar "2"], "- 1\n- 2"), (.map [(.scalar "k", .scalar "1")], "k: 1"),
      (.seq [.scalar "0", .null, .seq [.scalar "1", .scalar "2"] .flow,
        .seq [.scalar "1", .scalar "2"], .map [(.scalar "k", .scalar "1")]],
        "- 0\n- ~\n- [1, 2]\n-\n  - 1\n  - 2\n- k: 1"),
      (.seq [.null], "- ~")]
  nodup := by simp

theorem strings_roundTrip_styles :
  let C := string.vector stringDocuments.yaml
  let v := ["0", "~", "[1, 2]", "- 1\n- 2", "k: 1"]
  C.toStr v = some "- 0\n- ~\n- [1, 2]\n-\n  - 1\n  - 2\n- k: 1" ∧
    (C.toStr v).bind C.fromStr = some v
  := by
  intro C v
  use rfl
  apply (strings_roundTrip_iff stringDocuments.lawful v).mpr
  intro x hx
  have hemit : (stringDocuments.yaml.load x).map stringDocuments.yaml.emit = some x := by
    simp only [v, List.mem_cons, List.not_mem_nil, or_false] at hx
    obtain rfl | rfl | rfl | rfl | rfl := hx <;> rfl
  apply (emit_load_iff stringDocuments.lawful x).mp hemit

/-- `{""}` becomes `{"~"}`. -/
theorem empty_string_lost :
  let C := string.vector stringDocuments.yaml
  C.toStr [""] = some "- ~" ∧ (C.toStr [""]).bind C.fromStr = some ["~"] ∧
    stringDocuments.yaml.Lawful
  := ⟨rfl, rfl, stringDocuments.lawful⟩

end Codec

end WbServer
