import ApiLint.Proofs.Graph.Histories

/-!
# Chains of references end or go round

The chain that starts at a node is told here by its nodes: `Graph.nodeAfter?` is the node that a number of edges lead to,
one after another.  A chain ends at a node where no edge starts, or it comes to some node twice and then goes round for
ever (`Graph.ComesRound.isSome`).

Following keeps the nodes that it landed on and stops at the first that it has landed on before.  `Graph.Follows` says
what it comes to: of a chain that ends, its last node or the error that stands there, and of any other chain the first
node that it comes to twice.  From that node on the chain goes round, so that following from there comes back to it
(`Session.exists_follows`).
-/

namespace ApiLint

namespace Graph

section

variable (answer : DocumentId → Except LoadError Loaded)

def edgeAt? (l : Location) : Option Edge :=
  (answer l.document).toOption.bind fun d => d.references.edge? l.path

def errorAt? (l : Location) : Option ReferenceError :=
  (answer l.document).toOption.bind fun d => d.references.error? l.path

/-- The node that `n` edges lead to from `l`, one after another, if the chain has so many. -/
def nodeAfter? (l : Location) : Nat → Option Location
  | 0 => some l
  | n + 1 => (nodeAfter? l n).bind fun m => (edgeAt? answer m).map Edge.target

def TargetsLoad : Prop :=
  ∀ d e, answer d.id = .ok d → e ∈ d.references.edges →
    ∃ next, answer e.target.document = .ok next ∧ next.id = e.target.document

/-- The chain from `l` comes to `t` after `i` edges and again after `j`, and before that to no node twice. -/
structure ComesRound (l t : Location) (i j : Nat) : Prop where
  lt : i < j
  first : nodeAfter? answer l i = some t
  again : nodeAfter? answer l j = some t
  distinct : ∀ a b, a < b → b < j → nodeAfter? answer l a ≠ nodeAfter? answer l b

/-- What following the chain that starts at `l` comes to. -/
structure Follows (l : Location) (r : Resolution) : Prop where
  /-- A chain that ends comes to its last node, or to the error that stands there. -/
  ends : ∀ n last, nodeAfter? answer l n = some last → edgeAt? answer last = none →
    ∃ d, answer last.document = .ok d ∧ d.id = last.document ∧
      r = match errorAt? answer last with
        | none => .resolved d.document last.path
        | some e => .unresolved e
  /-- Following goes round if and only if the chain does not end. -/
  circles : (∃ t, r = .cycle t) ↔ ∀ n, (nodeAfter? answer l n).isSome
  /-- The node named then is the first that the chain comes to twice. -/
  first : ∀ t, r = .cycle t → ∃ i j, ComesRound answer l t i j ∧
    ∀ a b, a < b → nodeAfter? answer l a = nodeAfter? answer l b → i ≤ a

end

section

variable {answer : DocumentId → Except LoadError Loaded} {l t : Location} {i j m n : Nat}

/-! ### The nodes of a chain -/

theorem edgeAt?_of_ok {d : Loaded} (hd : answer l.document = .ok d) :
    edgeAt? answer l = d.references.edge? l.path := by
  rw [edgeAt?, hd]
  rfl

theorem errorAt?_of_ok {d : Loaded} (hd : answer l.document = .ok d) :
    errorAt? answer l = d.references.error? l.path := by
  rw [errorAt?, hd]
  rfl

theorem nodeAfter?_succ (answer : DocumentId → Except LoadError Loaded) (l : Location) (n : Nat) :
    nodeAfter? answer l (n + 1) = (nodeAfter? answer l n).bind fun m => (edgeAt? answer m).map Edge.target :=
  rfl

/-- A chain may be gone along in two parts. -/
theorem nodeAfter?_add (answer : DocumentId → Except LoadError Loaded) (l : Location) (m n : Nat) :
    nodeAfter? answer l (m + n) = (nodeAfter? answer l m).bind fun t => nodeAfter? answer t n := by
  induction n with
  | zero => exact (Option.bind_fun_some _).symm
  | succ n ih =>
    rw [← Nat.add_assoc, nodeAfter?_succ, ih, Option.bind_assoc]
    rfl

theorem isSome_nodeAfter?_of_le (hmn : m ≤ n) (h : (nodeAfter? answer l n).isSome) :
    (nodeAfter? answer l m).isSome := by
  obtain ⟨k, rfl⟩ := Nat.exists_eq_add_of_le hmn
  rw [nodeAfter?_add] at h
  cases hm : nodeAfter? answer l m with
  | none =>
    rw [hm] at h
    cases h
  | some t => rfl

/-- Behind the end of a chain there is nothing. -/
theorem nodeAfter?_of_end (h : nodeAfter? answer l n = some t) (hend : edgeAt? answer t = none) :
    nodeAfter? answer l (n + 1) = none := by
  rw [nodeAfter?_succ, h, Option.bind_some, hend, Option.map_none]

/-- A chain has one end. -/
theorem end_unique {t' : Location} (h : nodeAfter? answer l m = some t) (hend : edgeAt? answer t = none)
    (h' : nodeAfter? answer l n = some t') (hend' : edgeAt? answer t' = none) : t = t' := by
  have hlast : ∀ {m n t t'}, nodeAfter? answer l m = some t → edgeAt? answer t = none →
      nodeAfter? answer l n = some t' → n ≤ m := by
    intro m n t t' h hend h'
    by_contra hlt
    have hnext := isSome_nodeAfter?_of_le (Nat.lt_of_not_le hlt) (by rw [h']; rfl)
    rw [nodeAfter?_of_end h hend] at hnext
    cases hnext
  obtain rfl : m = n := Nat.le_antisymm (hlast h' hend' h) (hlast h hend h')
  exact Option.some.inj (h.symm.trans h')

namespace ComesRound

/-- What follows on the second visit followed on the first. -/
theorem nodeAfter?_eq (h : ComesRound answer l t i j) (n : Nat) :
    nodeAfter? answer l (j + n) = nodeAfter? answer l (i + n) := by
  rw [nodeAfter?_add, nodeAfter?_add, h.first, h.again]

/-- **A chain that comes to a node twice does not end.** -/
theorem isSome (h : ComesRound answer l t i j) (n : Nat) : (nodeAfter? answer l n).isSome := by
  induction n using Nat.strongRecOn with
  | ind n ih =>
    by_cases hn : n ≤ j
    · exact isSome_nodeAfter?_of_le hn (by rw [h.again]; rfl)
    · -- one round less leads to the same node
      obtain ⟨k, rfl⟩ := Nat.exists_eq_add_of_lt (Nat.lt_of_not_le hn)
      rw [Nat.add_assoc, h.nodeAfter?_eq]
      exact ih _ (by have := h.lt; omega)

/-- **No node before the round is come to twice.** -/
theorem le (h : ComesRound answer l t i j) {a b : Nat} (hab : a < b)
    (hsame : nodeAfter? answer l a = nodeAfter? answer l b) : i ≤ a := by
  induction b using Nat.strongRecOn with
  | ind b ih =>
    by_contra hlt
    by_cases hb : b < j
    · exact h.distinct a b hab hb hsame
    · obtain ⟨k, rfl⟩ := Nat.exists_eq_add_of_le (Nat.le_of_not_lt hb)
      rw [h.nodeAfter?_eq] at hsame
      have hij := h.lt
      exact hlt (ih (i + k) (by omega) (by omega) hsame)

/-- The chain from the node that is come to twice goes round. -/
theorem isSome_self (h : ComesRound answer l t i j) (n : Nat) : (nodeAfter? answer t n).isSome := by
  have hrest := h.isSome (i + n)
  rwa [nodeAfter?_add, h.first, Option.bind_some] at hrest

/-- Of the nodes on the round, the one that is come to twice first from itself is itself. -/
theorem eq_of_self (h : ComesRound answer l t i j) {t' : Location} {i' j' : Nat}
    (h' : ComesRound answer t t' i' j') : t' = t := by
  obtain ⟨k, hk⟩ := Nat.exists_eq_add_of_lt h.lt
  have hback : nodeAfter? answer t (k + 1) = some t := by
    have hround := nodeAfter?_add answer l i (k + 1)
    rw [h.first, Option.bind_some, ← Nat.add_assoc, ← hk, h.again] at hround
    exact hround.symm
  have hstart : i' ≤ 0 := h'.le (Nat.succ_pos k) hback.symm
  have hfirst := h'.first
  rw [Nat.le_zero.mp hstart] at hfirst
  exact (Option.some.inj hfirst).symm

end ComesRound

/-- The documents that a chain comes to load, under the ids by which it comes to them. -/
theorem TargetsLoad.of_nodeAfter? (h : TargetsLoad answer)
    (hstart : ∃ d, answer l.document = .ok d ∧ d.id = l.document) (ht : nodeAfter? answer l n = some t) :
    ∃ d, answer t.document = .ok d ∧ d.id = t.document := by
  induction n generalizing t with
  | zero =>
    obtain rfl : l = t := Option.some.inj ht
    exact hstart
  | succ n ih =>
    rw [nodeAfter?_succ] at ht
    obtain ⟨m, hm, ht⟩ := Option.bind_eq_some_iff.mp ht
    obtain ⟨e, hedge, rfl⟩ := Option.map_eq_some_iff.mp ht
    obtain ⟨d, hd, hid⟩ := ih hm
    rw [edgeAt?_of_ok hd] at hedge
    exact h d e (hid ▸ hd) (ReferenceTable.mem_of_edge? hedge)

/-! ### What following comes to -/

inductive Stops (answer : DocumentId → Except LoadError Loaded) (l : Location) : Resolution → Prop
  | resolved {n : Nat} {last : Location} {d : Loaded} : nodeAfter? answer l n = some last →
    answer last.document = .ok d → d.id = last.document → d.references.edge? last.path = none →
    d.references.error? last.path = none → Stops answer l (.resolved d.document last.path)
  | unresolved {n : Nat} {last : Location} {d : Loaded} {e : ReferenceError} : nodeAfter? answer l n = some last →
    answer last.document = .ok d → d.id = last.document → d.references.edge? last.path = none →
    d.references.error? last.path = some e → Stops answer l (.unresolved e)
  | cycle {t : Location} {i j : Nat} : ComesRound answer l t i j → Stops answer l (.cycle t)

/-- **Following stops at the end of the chain or where the chain comes to a node for the second time.**  The nodes landed
on are those of the first `n` edges, all of them different. -/
theorem Chain.stops {visited : List Location} {source : Loaded} {p : Path} {r : Resolution}
    (h : Chain answer visited source p r)
    (htargets : TargetsLoad answer)
    (hsource : answer source.id = .ok source) (hhere : nodeAfter? answer l n = some ⟨source.id, p⟩)
    (hvisited : ∀ t, t ∈ visited ↔ ∃ m ≤ n, nodeAfter? answer l m = some t)
    (hdistinct : ∀ a b, a < b → b ≤ n → nodeAfter? answer l a ≠ nodeAfter? answer l b) : Stops answer l r := by
  have hnext : ∀ {source p e n}, answer source.id = .ok source → nodeAfter? answer l n = some ⟨source.id, p⟩ →
      source.references.edge? p = some e → nodeAfter? answer l (n + 1) = some e.target := by
    intro source p e n hsource hhere hedge
    rw [nodeAfter?_succ, hhere, Option.bind_some, edgeAt?_of_ok hsource, hedge, Option.map_some]
  induction h generalizing n with
  | ends hedge herror => exact .resolved hhere hsource rfl hedge herror
  | fails hedge herror => exact .unresolved hhere hsource rfl hedge herror
  | closes hedge hlanded =>
    obtain ⟨m, hm, hbefore⟩ := (hvisited _).mp hlanded
    refine .cycle ⟨Nat.lt_succ_of_le hm, hbefore, hnext hsource hhere hedge, fun a b hab hb => ?_⟩
    exact hdistinct a b hab (Nat.le_of_lt_succ hb)
  | @goes visited source next p e r hedge hfresh hload _ ih =>
    obtain ⟨next', hnext', hid⟩ := htargets source e hsource (ReferenceTable.mem_of_edge? hedge)
    obtain rfl : next = next' := Except.ok.inj (hload.symm.trans hnext')
    have hthere := hnext hsource hhere hedge
    refine ih (n := n + 1) (hid ▸ hload) (hid ▸ hthere) (fun t => ?_) fun a b hab hb => ?_
    · rw [List.mem_cons, hvisited]
      constructor
      · rintro (rfl | ⟨m, hm, ht⟩)
        · exact ⟨n + 1, Nat.le_refl _, hthere⟩
        · exact ⟨m, Nat.le_succ_of_le hm, ht⟩
      · rintro ⟨m, hm, ht⟩
        rcases Nat.le_succ_iff.mp hm with hm | rfl
        · exact .inr ⟨m, hm, ht⟩
        · exact .inl (Option.some.inj (ht.symm.trans hthere))
    · rcases Nat.le_succ_iff.mp hb with hb | rfl
      · exact hdistinct a b hab hb
      · intro hsame
        exact hfresh ((hvisited _).mpr ⟨a, Nat.le_of_lt_succ hab, hsame.trans hthere⟩)

theorem Stops.follows {r : Resolution} (h : Stops answer l r) : Follows answer l r := by
  have hends : ∀ {n last d}, nodeAfter? answer l n = some last → answer last.document = .ok d →
      d.id = last.document → d.references.edge? last.path = none →
      (r = match d.references.error? last.path with
        | none => .resolved d.document last.path
        | some e => .unresolved e) → Follows answer l r := by
    intro n last d hlast hd hid hedge hr
    have hend : edgeAt? answer last = none := (edgeAt?_of_ok hd).trans hedge
    have hnocycle : ∀ t, r ≠ .cycle t := by
      intro t ht
      rw [ht] at hr
      split at hr <;> cases hr
    refine ⟨fun m last' hlast' hend' => ?_, ⟨fun ⟨t, ht⟩ => absurd ht (hnocycle t), fun hall => ?_⟩,
      fun t ht => absurd ht (hnocycle t)⟩
    · obtain rfl := end_unique hlast hend hlast' hend'
      exact ⟨d, hd, hid, by rw [errorAt?_of_ok hd]; exact hr⟩
    · have hnext := hall (n + 1)
      rw [nodeAfter?_of_end hlast hend] at hnext
      cases hnext
  cases h with
  | resolved hlast hd hid hedge herror => exact hends hlast hd hid hedge (by rw [herror])
  | unresolved hlast hd hid hedge herror => exact hends hlast hd hid hedge (by rw [herror])
  | @cycle t i j hround =>
    refine ⟨fun n last hlast hend => ?_, ⟨fun _ => hround.isSome, fun _ => ⟨t, rfl⟩⟩, fun t' ht' => ?_⟩
    · have hnext := hround.isSome (n + 1)
      rw [nodeAfter?_of_end hlast hend] at hnext
      cases hnext
    · obtain rfl := Resolution.cycle.inj ht'
      exact ⟨i, j, hround, fun a b hab hsame => hround.le hab hsame⟩

/-- Following goes round where some node is come to twice. -/
theorem Stops.exists_round (h : Stops answer l (.cycle t)) : ∃ i j, ComesRound answer l t i j := by
  cases h with
  | cycle hround => exact ⟨_, _, hround⟩

/-- **From the node that is come to twice, following comes back to it.** -/
theorem Stops.eq_cycle {r : Resolution} (hround : ComesRound answer l t i j) (h : Stops answer t r) :
    r = .cycle t := by
  obtain ⟨t', rfl⟩ := h.follows.circles.mpr hround.isSome_self
  obtain ⟨i', j', hround'⟩ := h.exists_round
  rw [hround.eq_of_self hround']

end

/-! ### Following in a graph -/

section

variable {g₀ g : Graph} {files : FileSystem} {id : DocumentId} {d : Loaded}

theorem targetsLoad (hg₀ : g₀.Consistent) : TargetsLoad fun id => (g₀.load files id).1 := by
  intro d e hd he
  obtain ⟨next, hnext, hid, -⟩ := Yields.target hg₀ hd he
  exact ⟨next, hnext, hid⟩

/-- In every state that comes later, following stops where the chain does. -/
theorem stops_follow (hg₀ : g₀.Consistent) (hg : Grows files g₀ g) (h : (g₀.load files id).1 = .ok d) (p : Path) :
    ∃ r, (g.follow files id p).1 = .ok r ∧ Stops (fun id => (g₀.load files id).1) ⟨d.id, p⟩ r := by
  obtain ⟨r, hr, hchain⟩ := chain_follow hg₀ hg h p
  refine ⟨r, hr, hchain.stops (n := 0) (targetsLoad hg₀) (yields_of_load hg₀ h) rfl (fun t => ?_) ?_⟩
  · rw [List.mem_singleton]
    constructor
    · rintro rfl
      exact ⟨0, Nat.le_refl 0, rfl⟩
    · rintro ⟨m, hm, ht⟩
      obtain rfl := Nat.le_zero.mp hm
      exact (Option.some.inj ht).symm
  · intro a b hab hb
    omega

end

end Graph

namespace Session

open ApiLint.Graph (Follows)

variable {s : Session} {id : DocumentId} {d : Loaded}

/-- **Following a chain of references comes to its end, or to the first node that it comes to twice**, and from that
node it comes back to it, whatever is asked for in between. -/
theorem exists_follows {base : FilePath} (hbase : base.isAbsolute = true) (hs : s.From base)
    (h : (s.graph.load s.files id).1 = .ok d) (p : Path) :
    ∃ r, (s.graph.follow s.files id p).1 = .ok r ∧
      Follows (fun id => (s.graph.load s.files id).1) ⟨d.id, p⟩ r ∧
      ∀ t, r = .cycle t → ∀ ops : List Operation, (∀ op ∈ ops, op.isRequest = true) →
        ((s.run ops).graph.follow s.files t.document t.path).1 = .ok (.cycle t) := by
  have hg := hs.consistent hbase
  obtain ⟨r, hr, hstops⟩ := Graph.stops_follow hg (Graph.Grows.refl s.files hg) h p
  refine ⟨r, hr, hstops.follows, ?_⟩
  rintro t rfl ops hops
  obtain ⟨i, j, hround⟩ := hstops.exists_round
  have hstart : ∃ d', (s.graph.load s.files d.id).1 = .ok d' ∧ d'.id = d.id := ⟨d, Graph.yields_of_load hg h, rfl⟩
  obtain ⟨source, hsource, hid⟩ := (Graph.targetsLoad hg).of_nodeAfter? (l := ⟨d.id, p⟩) hstart hround.first
  obtain ⟨-, hgrows⟩ := grows_of_requests hg hops
  obtain ⟨r', hr', hstops'⟩ := Graph.stops_follow hg hgrows hsource t.path
  have hplace : (⟨source.id, t.path⟩ : Location) = t := by rw [hid]
  rw [hplace] at hstops'
  rw [hr', hstops'.eq_cycle hround]

/-- A chain that starts off the circle: two documents refer to each other, and a third node leads to them. -/
theorem exists_follows_round : ∃ s : Session, (⟨"/"⟩ : FilePath).isAbsolute = true ∧ s.From ⟨"/"⟩ ∧
    ∃ d, (s.graph.load s.files ⟨"/a.json"⟩).1 = .ok d ∧ d.id = ⟨"/a.json"⟩ ∧
      ((s.graph.follow s.files ⟨"/a.json"⟩ [.key "p"]).1.toOption.bind fun
        | .cycle t => some t
        | _ => none) = some ⟨⟨"/b.json"⟩, [.key "x"]⟩ ∧
      ∃ r, (s.graph.follow s.files ⟨"/a.json"⟩ [.key "p"]).1 = .ok r ∧
        Follows (fun id => (s.graph.load s.files id).1) ⟨d.id, [.key "p"]⟩ r ∧
        ∀ t, r = .cycle t → ∀ ops : List Operation, (∀ op ∈ ops, op.isRequest = true) →
          ((s.run ops).graph.follow s.files t.document t.path).1 = .ok (.cycle t) := by
  let files : FileSystem := ⟨[
    (⟨"/a.json"⟩, "\x7b\"p\":\x7b\"$ref\":\"b.json#/x\"\x7d,\"y\":\x7b\"$ref\":\"b.json#/x\"\x7d\x7d"),
    (⟨"/b.json"⟩, "\x7b\"x\":\x7b\"$ref\":\"a.json#/y\"\x7d\x7d")], fun _ => "no such file"⟩
  let s : Session := ⟨files, .empty ⟨"/"⟩⟩
  have hbase : (⟨"/"⟩ : FilePath).isAbsolute = true := by decide +kernel
  have hfrom : s.From ⟨"/"⟩ := ⟨files, [], rfl⟩
  have hsome : (s.graph.load s.files ⟨"/a.json"⟩).1.toOption.isSome = true := by decide +kernel
  have hcanonical : s.graph.canonical ⟨"/a.json"⟩ = ⟨"/a.json"⟩ := by decide +kernel
  obtain ⟨d, hd⟩ := Option.isSome_iff_exists.mp hsome
  have hd : (s.graph.load s.files ⟨"/a.json"⟩).1 = .ok d := Graph.load_of_mem_toOption hd
  have hid : d.id = ⟨"/a.json"⟩ := ((hfrom.consistent hbase).id_of_load hd).trans hcanonical
  exact ⟨s, hbase, hfrom, d, hd, hid, by decide +kernel, exists_follows hbase hfrom hd [.key "p"]⟩

end Session

end ApiLint
