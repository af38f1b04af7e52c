import ApiLint.Proofs.Json.Positions
import ApiLint.Proofs.Json.Grammar

/-!
# Nodes in document order

`Value.Before` is the order in which the nodes of a value stand in a document: a node before what is in it, and
what is in a child before what is in a later child.  The nodes of a value that was read are those to which its
paths lead (`Value.mem_nodes_iff`), and they are listed in this order (`Value.pairwise_nodes`).  Both rest on an
object not repeating a name, which holds of every value that is read
(`Json.hasDistinctNames_of_read`).
-/

namespace ApiLint

namespace Value

def HasDistinctNames (v : Value) : Prop :=
  ∀ p members, v.get? p = some (.object members) → (members.map Prod.fst).Nodup

/-- `v.Before p q`: in `v`, what `p` leads to comes before what `q` leads to. -/
inductive Before : Value → Path → Path → Prop
  | above (v : Value) (s : Segment) (q : Path) : Before v [] (s :: q)
  | beside {v c d : Value} {s t : Segment} (p q : Path) : [(s, c), (t, d)].Sublist v.children →
    Before v (s :: p) (t :: q)
  | within {v c : Value} {s : Segment} {p q : Path} : (s, c) ∈ v.children → Before c p q →
    Before v (s :: p) (s :: q)

variable {v c w : Value} {s : Segment} {p q : Path}

/-! ### Children -/

namespace HasDistinctNames

theorem child?_of_mem_children (h : v.HasDistinctNames) (hc : (s, c) ∈ v.children) : v.child? s = some c := by
  cases v with
  | array items =>
    obtain ⟨e, he, heq⟩ := List.mem_map.mp hc
    obtain ⟨rfl, rfl⟩ := Prod.mk.inj heq
    exact List.mk_mem_zipIdx_iff_getElem?.mp he
  | object members =>
    obtain ⟨m, hm, heq⟩ := List.mem_map.mp hc
    obtain ⟨rfl, rfl⟩ := Prod.mk.inj heq
    exact Json.Grammar.lookup_of_mem (h [] members rfl) hm
  | _ => exact absurd hc List.not_mem_nil

theorem of_get? (h : v.HasDistinctNames) (hw : v.get? p = some w) : w.HasDistinctNames := by
  intro q members hq
  refine h (p ++ q) members ?_
  rw [get?_append, hw, Option.bind_some, hq]

theorem of_mem_children (h : v.HasDistinctNames) (hc : (s, c) ∈ v.children) : c.HasDistinctNames := by
  refine h.of_get? (p := [s]) ?_
  rw [get?_cons, h.child?_of_mem_children hc]
  rfl

theorem nodup_children (h : v.HasDistinctNames) : (v.children.map Prod.fst).Nodup := by
  cases v with
  | array items =>
    have hsegments : ((array items).children).map Prod.fst
        = (List.range' 0 items.length).map Segment.index := by
      rw [children, List.map_map, ← List.zipIdx_map_snd 0 items, List.map_map]
      rfl
    rw [hsegments]
    exact List.Nodup.map (fun i j hij => Segment.index.inj hij) List.nodup_range'
  | object members =>
    have hsegments : ((object members).children).map Prod.fst = (members.map Prod.fst).map Segment.key := by
      rw [children, List.map_map, List.map_map]
      rfl
    rw [hsegments]
    exact List.Nodup.map (fun i j hij => Segment.key.inj hij) (h [] members rfl)
  | _ => exact List.nodup_nil

end HasDistinctNames

/-- No node comes before itself. -/
theorem Before.ne (h : v.HasDistinctNames) (hpq : v.Before p q) : p ≠ q := by
  induction hpq with
  | above v s q => exact fun heq => nomatch heq
  | @beside v c d s t p q hst =>
    have hsegments : [s, t].Nodup := (hst.map Prod.fst).nodup h.nodup_children
    intro heq
    rw [(List.cons.inj heq).1, List.nodup_cons] at hsegments
    exact hsegments.1 (List.mem_singleton_self t)
  | within hc _ ih =>
    intro heq
    exact ih (h.of_mem_children hc) (List.cons.inj heq).2

/-! ### Nodes -/

mutual

theorem nodesFrom_append (p q : Path) :
    ∀ v : Value, nodesFrom (p ++ q) v = (nodesFrom q v).map fun n => (p ++ n.1, n.2)
  | array items => by rw [nodesFrom, nodesFrom, itemNodes_append p q 0 items, List.map_cons]
  | object members => by rw [nodesFrom, nodesFrom, memberNodes_append p q members, List.map_cons]
  | null | bool _ | number _ | string _ => rfl

theorem itemNodes_append (p q : Path) (i : Nat) :
    ∀ vs : List Value, itemNodes (p ++ q) i vs = (itemNodes q i vs).map fun n => (p ++ n.1, n.2)
  | [] => rfl
  | v :: vs => by
    rw [itemNodes, itemNodes, List.map_append, ← itemNodes_append p q (i + 1) vs, ← nodesFrom_append,
      Path.child, Path.child, List.append_assoc]

theorem memberNodes_append (p q : Path) :
    ∀ ms : List (String × Value), memberNodes (p ++ q) ms = (memberNodes q ms).map fun n => (p ++ n.1, n.2)
  | [] => rfl
  | (k, v) :: ms => by
    rw [memberNodes, memberNodes, List.map_append, ← memberNodes_append p q ms, ← nodesFrom_append,
      Path.child, Path.child, List.append_assoc]

end

theorem nodesFrom_eq (p : Path) (v : Value) : nodesFrom p v = v.nodes.map fun n => (p ++ n.1, n.2) := by
  have happend := nodesFrom_append p [] v
  rwa [List.append_nil] at happend

theorem itemNodes_eq (i : Nat) (vs : List Value) :
    itemNodes [] i vs = (vs.zipIdx i).flatMap fun c => c.1.nodes.map fun n => (.index c.2 :: n.1, n.2) := by
  induction vs generalizing i with
  | nil => rfl
  | cons v vs ih =>
    rw [itemNodes, ih, List.zipIdx_cons, List.flatMap_cons, nodesFrom_eq]
    rfl

theorem memberNodes_eq (ms : List (String × Value)) :
    memberNodes [] ms = ms.flatMap fun m => m.2.nodes.map fun n => (.key m.1 :: n.1, n.2) := by
  induction ms with
  | nil => rfl
  | cons m ms ih =>
    obtain ⟨k, v⟩ := m
    rw [memberNodes, ih, List.flatMap_cons, nodesFrom_eq]
    rfl

/-- The nodes of a value are itself and the nodes of its children. -/
theorem nodes_eq (v : Value) :
    v.nodes = ([], v) :: v.children.flatMap fun c => c.2.nodes.map fun n => (c.1 :: n.1, n.2) := by
  cases v with
  | array items =>
    rw [nodes, nodesFrom, itemNodes_eq, children, List.flatMap_map]
  | object members =>
    rw [nodes, nodesFrom, memberNodes_eq, children, List.flatMap_map]
  | _ => rfl

/-- **The nodes of a value are what its paths lead to.** -/
theorem mem_nodes_iff {v w : Value} {p : Path} (h : v.HasDistinctNames) :
    (p, w) ∈ v.nodes ↔ v.get? p = some w := by
  refine ⟨fun hnode => ?_, mem_nodes_of_get?⟩
  rw [nodes_eq, List.mem_cons] at hnode
  rcases hnode with heq | hnode
  · obtain ⟨rfl, rfl⟩ := Prod.mk.inj heq
    rfl
  · obtain ⟨⟨s, c⟩, hc, hnode⟩ := List.mem_flatMap.mp hnode
    obtain ⟨⟨q, w'⟩, hn, heq⟩ := List.mem_map.mp hnode
    obtain ⟨rfl, rfl⟩ := Prod.mk.inj heq
    have hsmaller := sizeOf_lt_of_mem_children hc
    rw [get?_cons, h.child?_of_mem_children hc, Option.bind_some]
    exact (mem_nodes_iff (h.of_mem_children hc)).mp hn
termination_by sizeOf v

/-- **The nodes of a value are listed in document order.** -/
theorem pairwise_nodes (v : Value) : v.nodes.Pairwise fun m n => v.Before m.1 n.1 := by
  rw [nodes_eq, List.pairwise_cons]
  refine ⟨fun n hn => ?_, List.pairwise_flatMap.mpr ⟨fun c hc => ?_, ?_⟩⟩
  · obtain ⟨c, -, hn⟩ := List.mem_flatMap.mp hn
    obtain ⟨m, -, rfl⟩ := List.mem_map.mp hn
    exact .above v c.1 m.1
  · have hsmaller := sizeOf_lt_of_mem_children hc
    refine List.pairwise_map.mpr ((pairwise_nodes c.2).imp fun hmn => ?_)
    exact .within hc hmn
  · refine List.pairwise_iff_forall_sublist.mpr fun {a b} hab m hm n hn => ?_
    obtain ⟨m', -, rfl⟩ := List.mem_map.mp hm
    obtain ⟨n', -, rfl⟩ := List.mem_map.mp hn
    exact .beside m'.1 n'.1 hab
termination_by sizeOf v

end Value

/-- **No object of a value that is read repeats a name.** -/
theorem Json.hasDistinctNames_of_read {text : String} {tree : Tree} (h : Json.read text = .ok tree) :
    tree.value.HasDistinctNames := by
  obtain ⟨w, -, rfl⟩ := Json.read_eq_ok_iff.mp h
  intro p members hp
  rw [show (Tree.ofWritten w).value = w.value from rfl, Written.get?_value] at hp
  obtain ⟨u, -, hu⟩ := Option.map_eq_some_iff.mp hp
  cases u with
  | object s ms =>
    rw [Written.value] at hu
    rw [← Value.object.inj hu]
    exact Json.Grammar.nodup_names_lastMentions _
  | _ => cases hu

end ApiLint
