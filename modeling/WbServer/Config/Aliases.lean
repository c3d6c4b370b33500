import WbServer.Base.Depth
import WbServer.Config.Load

/-!
# Documents with aliases

An alias is the anchored node itself, so that a document with aliases is a graph of nodes.
`list_all_menmber` follows the values of maps, whatever nodes it has seen before. It comes
to an end if and only if no map that it finds is a value below itself
(`Graph.listAllMenmber_terminates_iff`). On a graph that unfolds to a tree it makes the list
of the tree (`Graph.listAllMenmber_unfolds`).
-/

namespace WbServer

namespace Yaml

/-- A graph of nodes. -/
abbrev Graph (V : Type) : Type := V → Shape V

namespace Graph

variable {V : Type}

/-- `list_all_menmber` with at most `depth` nested calls. An invalid prefix is only logged. -/
def listAllMenmber (g : Graph V) : ℕ → String → V → Option (List (String × V))
  | 0, _, _ => none
  | depth + 1, pfx, v =>
      match g v with
      | .map es =>
          (es.mapM fun e =>
            let key := (g e.1).scalarText
            listAllMenmber g depth (if pfx = "" then key else pfx ++ "." ++ key) e.2).map
              fun ls => (pfx, v) :: ls.flatten
      | _ => some [(pfx, v)]

/-- The second node is a value of the first one, which is a map. -/
def Below (g : Graph V) (v w : V) : Prop :=
  ∃ es, g v = .map es ∧ ∃ e ∈ es, e.2 = w

theorem isSome_mapM {α β : Type} {f : α → Option β} {l : List α} :
  (l.mapM f).isSome = true ↔ ∀ a ∈ l, (f a).isSome = true
  := by
  induction l with
  | nil => simp
  | cons a l ih =>
      rw [List.forall_mem_cons, ← ih, List.mapM_cons]
      cases f a with
      | none => simp
      | some b => cases l.mapM f <;> simp

/-- The calls end within a depth that bounds the chains of values. -/
theorem isSome_listAllMenmber (g : Graph V) (depth : ℕ) (pfx : String) (v : V) :
  (g.listAllMenmber depth pfx v).isSome = true ↔ Depth.Within g.Below depth v
  := by
  induction depth generalizing pfx v with
  | zero => simp [listAllMenmber, Depth.Within]
  | succ depth ih =>
      rw [listAllMenmber, Depth.Within]
      cases hv : g v with
      | map es =>
          simp only [Option.isSome_map, isSome_mapM, ih]
          constructor
          · rintro h w ⟨es', hes, e, he, rfl⟩
            rw [hv] at hes
            obtain rfl := Shape.map.inj hes
            apply h e he
          · intro h e he
            apply h e.2 ⟨es, hv, e, he, rfl⟩
      | null => simp [Below, hv]
      | scalar text => simp [Below, hv]
      | seq nodes => simp [Below, hv]

/-- `list_all_menmber` comes to an end, with a list, if and only if no map that it reaches
is below itself. -/
theorem listAllMenmber_terminates_iff [Finite V] (g : Graph V) (pfx : String) (root : V) :
  (∃ depth l, g.listAllMenmber depth pfx root = some l) ↔
    ∀ v, Relation.ReflTransGen g.Below root v → ¬ Relation.TransGen g.Below v v
  := by
  rw [← Depth.exists_within_iff]
  apply exists_congr
  intro depth
  rw [← isSome_listAllMenmber g depth pfx, Option.isSome_iff_exists]

/-- The document `b: {d: &e 1}`, `f: *e`, in which two maps share a scalar. -/
def shared : Graph (Fin 6)
  | 0 => .map [(2, 1), (4, 5)]
  | 1 => .map [(3, 5)]
  | 2 => .scalar "b"
  | 3 => .scalar "d"
  | 4 => .scalar "f"
  | 5 => .scalar "1"

theorem listAllMenmber_terminates_shared :
  shared.listAllMenmber 3 "" 0 = some [("", 0), ("b", 1), ("b.d", 5), ("f", 5)] ∧
    ∀ v, Relation.ReflTransGen shared.Below 0 v → ¬ Relation.TransGen shared.Below v v
  := by
  have hlist : shared.listAllMenmber 3 "" 0 =
      some [("", 0), ("b", 1), ("b.d", 5), ("f", 5)] := by decide
  exact ⟨hlist, (listAllMenmber_terminates_iff shared "" 0).mp ⟨3, _, hlist⟩⟩

/-- The document `&a {b: *a}`. -/
def enclosing : Graph (Fin 2)
  | 0 => .map [(1, 0)]
  | 1 => .scalar "b"

/-- On a map that is its own value the calls do not end. -/
theorem listAllMenmber_enclosing :
  ¬ ∃ depth l, enclosing.listAllMenmber depth "" 0 = some l
  := by
  have hbelow : enclosing.Below 0 0 := ⟨[(1, 0)], rfl, (1, 0), List.mem_cons_self, rfl⟩
  rintro ⟨depth, l, h⟩
  have hwithin : Depth.Within enclosing.Below depth 0 := by
    rw [← isSome_listAllMenmber enclosing depth "", h]
    rfl
  apply hwithin.not_cycle (.single hbelow)

/-! ### Trees -/

theorem eq_map_of_shape {n : Node} {es : List (Node × Node)} (h : Nodes.shape n = .map es) :
  ∃ style, n = .map es style
  := by
  cases n with
  | map es' style =>
      obtain rfl := Shape.map.inj h
      use style
  | _ => cases h

theorem listAllMenmber_of_shape {n : Node} (h : ∀ es, Nodes.shape n ≠ .map es) (pfx : String) :
  Config.listAllMenmber pfx n = [(pfx, n)]
  := by
  cases n with
  | map es style => exact absurd rfl (h es)
  | _ => rfl

/-- The graph unfolds to these trees, whatever their styles. -/
def Unfolds (g : Graph V) (tree : V → Node) : Prop :=
  ∀ v, Nodes.shape (tree v) = (g v).mapParts tree

theorem Unfolds.scalarText_eq {g : Graph V} {tree : V → Node} (h : g.Unfolds tree) (v : V) :
  (tree v).scalarText = (g v).scalarText
  := by
  have htext : ∀ n : Node, n.scalarText = (Nodes.shape n).scalarText := by
    intro n
    cases n <;> rfl
  rw [htext, h v]
  cases g v <;> rfl

/-- The entries of the list are those of the list of the tree. -/
theorem listAllMenmber_unfolds {g : Graph V} {tree : V → Node} (h : g.Unfolds tree) (depth : ℕ)
    (pfx : String) (v : V) (l : List (String × V)) (hl : g.listAllMenmber depth pfx v = some l) :
  Config.listAllMenmber pfx (tree v) = l.map fun p => (p.1, tree p.2)
  := by
  induction depth generalizing pfx v l with
  | zero => cases hl
  | succ depth ih =>
      have hentries : ∀ (es : List (V × V)) (ls : List (List (String × V))),
          (es.mapM fun e =>
            let key := (g e.1).scalarText
            g.listAllMenmber depth (if pfx = "" then key else pfx ++ "." ++ key) e.2) = some ls →
          Config.listEntries pfx (es.map fun e => (tree e.1, tree e.2)) =
            ls.flatten.map fun p => (p.1, tree p.2) := by
        intro es
        induction es with
        | nil =>
            intro ls hls
            obtain rfl : [] = ls := by simpa using hls
            rfl
        | cons e es ihes =>
            intro ls hls
            rw [List.mapM_cons, Option.bind_eq_bind, Option.bind_eq_some_iff] at hls
            obtain ⟨l₁, hl₁, hls⟩ := hls
            rw [Option.bind_eq_bind, Option.bind_eq_some_iff] at hls
            obtain ⟨ls₁, hls₁, hls⟩ := hls
            obtain rfl := Option.some.inj hls
            rw [List.map_cons, Config.listEntries, h.scalarText_eq, ih _ _ _ hl₁, ihes ls₁ hls₁,
              List.flatten_cons, List.map_append]
      have hv := h v
      rw [listAllMenmber] at hl
      split at hl
      case h_1 es hg =>
        obtain ⟨ls, hls, rfl⟩ := Option.map_eq_some_iff.mp hl
        rw [hg] at hv
        obtain ⟨style, htree⟩ := eq_map_of_shape hv
        rw [htree, Config.listAllMenmber, hentries es ls hls, List.map_cons, htree]
      case h_2 hg =>
        have hleaf : ∀ es, Nodes.shape (tree v) ≠ .map es := by
          intro es hes
          rw [hv] at hes
          cases hshape : g v with
          | map es' => apply hg es' hshape
          | _ =>
              rw [hshape] at hes
              cases hes
        obtain rfl := Option.some.inj hl
        rw [listAllMenmber_of_shape hleaf, List.map_singleton]

end Graph

end Yaml

end WbServer
