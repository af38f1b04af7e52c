import ApiLint.Json.Reader

/-!
# Every node has a span, and every span a node

A reader records spans under paths while it reads, and drops what it recorded below a name when the name
is repeated.  This file shows that what is left in the end are exactly the nodes of the value
(`Json.span?_isSome_iff`).

`Written.get?` walks a path down a value as written, where the last mention of a name counts.  The main
facts are `Written.get?_record_of_not_below`, that recording a value at a path leaves everything else
alone, and `Written.get?_record_append`, that at and below the path it records the spans of the nodes,
whatever was repeated there, if nothing is recorded below the path before.  For the members of an object
the second is an induction over the text (`Written.get?_recordMembers`): what is recorded below a name is
the last mention read so far, and nothing is recorded below the names that are still to come.
-/

namespace ApiLint

/-! ### Paths below a path -/

namespace Path

theorem child_isPrefix_iff {p q : Path} {s t : Segment} : p.child s <+: p ++ t :: q ↔ s = t := by
  rw [child_eq, List.prefix_append_right_inj, List.cons_prefix_cons]
  exact and_iff_left List.nil_prefix

theorem child_append (p q : Path) (s : Segment) : p.child s ++ q = p ++ s :: q := by
  rw [child_eq, List.append_assoc, List.singleton_append]

theorem isPrefix_of_child_isPrefix {p q : Path} {s : Segment} (h : p.child s <+: q) : p <+: q :=
  (List.prefix_append p [s]).trans h

end Path

/-! ### Nodes of a value as written -/

namespace Written

/-- The child that a segment designates; of a repeated name, the last mention. -/
def child? : Written → Segment → Option Written
  | array _ items, .index i => items[i]?
  | object _ members, .key k => List.lookup k members.reverse
  | _, _ => none

def get? (w : Written) : Path → Option Written
  | [] => some w
  | s :: p => (w.child? s).bind fun c => c.get? p

theorem child?_value (w : Written) (s : Segment) : w.value.child? s = (w.child? s).map value := by
  cases w with
  | array span items =>
    cases s with
    | key k => rfl
    | index i =>
      rw [value, values_eq_map]
      exact List.getElem?_map ..
  | object span members =>
    cases s with
    | key k =>
      rw [value, memberValues_eq_map, Value.child?, Value.member?, lookup_lastMentions, ← List.map_reverse,
        lookup_map fun _ => value]
      rfl
    | index i => rfl
  | _ => cases s <;> rfl

/-- A path leads to the value of the node it leads to. -/
theorem get?_value (w : Written) (p : Path) : w.value.get? p = (w.get? p).map value := by
  induction p generalizing w with
  | nil => rfl
  | cons s p ih =>
    rw [Value.get?_cons, child?_value, get?]
    cases w.child? s with
    | none => rfl
    | some c => exact ih c

end Written

/-! ### What is recorded -/

/-- Nothing is recorded at `p` and below. -/
def PositionIndex.Free (ix : PositionIndex) (p : Path) : Prop :=
  ∀ q, p <+: q → ix.get? q = none

namespace PositionIndex

theorem free_removeSubtree (ix : PositionIndex) (p : Path) : (ix.removeSubtree p).Free p := by
  intro q hq
  rw [get?_removeSubtree, if_pos (Path.startsWith_iff.mpr hq)]

theorem get?_insert_of_not_below (ix : PositionIndex) {p q : Path} (s : Span) (h : ¬ p <+: q) :
    (ix.insert p s).get? q = ix.get? q := by
  rw [get?_insert, if_neg]
  rintro rfl
  exact h (List.prefix_refl p)

theorem get?_insert_below (ix : PositionIndex) (p q : Path) (s : Span) (t : Segment) :
    (ix.insert p s).get? (p ++ t :: q) = ix.get? (p ++ t :: q) := by
  rw [get?_insert, if_neg]
  intro h
  exact List.cons_ne_nil t q (List.append_right_eq_self.mp h.symm)

theorem get?_removeSubtree_of_not_below (ix : PositionIndex) {p q : Path} (h : ¬ p <+: q) :
    (ix.removeSubtree p).get? q = ix.get? q := by
  rw [get?_removeSubtree, if_neg (fun hq => h (Path.startsWith_iff.mp hq))]

end PositionIndex

namespace Written

theorem get?_cleared_of_not_below {p r : Path} {k : String} (before : List String) (ix : PositionIndex)
    (h : ¬ p.child (.key k) <+: r) : (cleared p before k ix).get? r = ix.get? r := by
  rw [cleared]
  split
  · exact PositionIndex.get?_removeSubtree_of_not_below ix h
  · rfl

/-- There is room for a member: what an earlier one of the name left is gone, and else nothing was there. -/
theorem free_cleared {p : Path} {before : List String} {ix : PositionIndex} {k : String}
    (h : k ∉ before → ix.Free (p.child (.key k))) : (cleared p before k ix).Free (p.child (.key k)) := by
  rw [cleared]
  by_cases hk : k ∈ before
  · rw [if_pos hk]
    exact ix.free_removeSubtree _
  · rw [if_neg hk]
    exact h hk

mutual

/-- Recording a value at `p` leaves alone what is not below `p`. -/
theorem get?_record_of_not_below {p r : Path} (ix : PositionIndex) :
    ∀ w : Written, ¬ p <+: r → (w.record p ix).get? r = ix.get? r
  | array s items, h => by
    rw [record, PositionIndex.get?_insert_of_not_below _ s h]
    exact get?_recordItems_of_not_below 0 ix items fun i _ hi => h (Path.isPrefix_of_child_isPrefix hi)
  | object s members, h => by
    rw [record, PositionIndex.get?_insert_of_not_below _ s h]
    exact get?_recordMembers_of_not_below [] ix members fun k hk => h (Path.isPrefix_of_child_isPrefix hk)
  | null s, h | bool s _, h | number s _, h | string s _, h => by
    exact PositionIndex.get?_insert_of_not_below ix s h

theorem get?_recordItems_of_not_below {p r : Path} (i : Nat) (ix : PositionIndex) :
    ∀ ws : List Written, (∀ j, i ≤ j → ¬ p.child (.index j) <+: r) →
      (recordItems p i ix ws).get? r = ix.get? r
  | [], _ => rfl
  | w :: ws, h => by
    rw [recordItems, get?_recordItems_of_not_below (i + 1) _ ws fun j hj => h j (by omega)]
    exact get?_record_of_not_below ix w (h i (Nat.le_refl i))

theorem get?_recordMembers_of_not_below {p r : Path} (before : List String) (ix : PositionIndex) :
    ∀ ms : List (String × Written), (∀ k, ¬ p.child (.key k) <+: r) →
      (recordMembers p before ix ms).get? r = ix.get? r
  | [], _ => rfl
  | (k, w) :: ms, h => by
    rw [recordMembers, get?_recordMembers_of_not_below (k :: before) _ ms h,
      get?_record_of_not_below _ w (h k), get?_cleared_of_not_below before ix (h k)]

end

/-! ### What is recorded at the path and below -/

/-- Recording one child leaves what is free at another child free. -/
theorem free_record_sibling {p : Path} {s t : Segment} {ix : PositionIndex} (w : Written) (hst : s ≠ t)
    (h : ix.Free (p.child t)) : (w.record (p.child s) ix).Free (p.child t) := by
  rintro _ ⟨q, rfl⟩
  rw [get?_record_of_not_below ix w]
  · exact h _ (List.prefix_append _ q)
  · rw [Path.child_append, Path.child_isPrefix_iff]
    exact hst

mutual

/-- **Recording a value at a path where nothing is records, below the path, the span of every node, and
nothing else.** -/
theorem get?_record_append {p : Path} {ix : PositionIndex} :
    ∀ (w : Written) (q : Path), ix.Free p → (w.record p ix).get? (p ++ q) = (w.get? q).map span
  | array s items, [], _ | object s members, [], _ | null s, [], _ | bool s _, [], _ | number s _, [], _
  | string s _, [], _ => by
    rw [record, List.append_nil, PositionIndex.get?_insert, if_pos rfl]
    rfl
  | array s items, .index j :: q, h => by
    have hitems := get?_recordItems (q := q) (i := 0) items j fun i _ =>
      fun r hr => h r (Path.isPrefix_of_child_isPrefix hr)
    rw [Nat.zero_add, Path.child_append] at hitems
    rw [record, PositionIndex.get?_insert_below, hitems]
    rfl
  | array s items, .key k :: q, h => by
    rw [record, PositionIndex.get?_insert_below, get?_recordItems_of_not_below 0 ix items]
    · exact h _ (List.prefix_append p _)
    · intro j _
      rw [Path.child_isPrefix_iff]
      exact Segment.noConfusion
  | object s members, .key k :: q, h => by
    have hmembers := get?_recordMembers (q := q) [] members k fun i _ =>
      fun r hr => h r (Path.isPrefix_of_child_isPrefix hr)
    rw [Path.child_append] at hmembers
    rw [record, PositionIndex.get?_insert_below, hmembers, h _ (List.prefix_append p _), get?, child?]
    cases List.lookup k members.reverse <;> rfl
  | object s members, .index j :: q, h => by
    rw [record, PositionIndex.get?_insert_below, get?_recordMembers_of_not_below [] ix members]
    · exact h _ (List.prefix_append p _)
    · intro k
      rw [Path.child_isPrefix_iff]
      exact Segment.noConfusion
  | null s, _ :: q, h | bool s _, _ :: q, h | number s _, _ :: q, h | string s _, _ :: q, h => by
    rw [record, PositionIndex.get?_insert_below]
    exact h _ (List.prefix_append p _)

/-- The elements from the `i`-th on are recorded under their indexes. -/
theorem get?_recordItems {p q : Path} {i : Nat} {ix : PositionIndex} :
    ∀ (ws : List Written) (j : Nat), (∀ j, i ≤ j → ix.Free (p.child (.index j))) →
      (recordItems p i ix ws).get? (p.child (.index (i + j)) ++ q)
        = (ws[j]?.bind fun w => w.get? q).map span
  | [], j, h => h _ (Nat.le_add_right i j) _ (List.prefix_append _ q)
  | w :: ws, 0, h => by
    rw [recordItems, get?_recordItems_of_not_below (i + 1) _ ws]
    · exact get?_record_append w q (h i (Nat.le_refl i))
    · intro j hj
      rw [Nat.add_zero, Path.child_append, Path.child_isPrefix_iff, Segment.index.injEq]
      omega
  | w :: ws, j + 1, h => by
    have hfree : ∀ l, i + 1 ≤ l → (w.record (p.child (.index i)) ix).Free (p.child (.index l)) := by
      intro l hl
      refine free_record_sibling w ?_ (h l (by omega))
      rw [Ne, Segment.index.injEq]
      omega
    rw [recordItems, show i + (j + 1) = i + 1 + j by omega, get?_recordItems ws j hfree,
      List.getElem?_cons_succ]

/-- Below a name stands what the last mention of it left, and what was there before if there is none.
Of the names that did not come before, nothing may be there. -/
theorem get?_recordMembers {p q : Path} (before : List String) {ix : PositionIndex} :
    ∀ (ms : List (String × Written)) (k : String), (∀ k, k ∉ before → ix.Free (p.child (.key k))) →
      (recordMembers p before ix ms).get? (p.child (.key k) ++ q)
        = (List.lookup k ms.reverse).elim (ix.get? (p.child (.key k) ++ q)) fun w => (w.get? q).map span
  | [], k, h => rfl
  | (l, w) :: ms, k, h => by
    -- the names still to come are free, since neither clearing nor recording `l` reaches them
    have hfree : ∀ m, m ∉ l :: before →
        (w.record (p.child (.key l)) (cleared p before l ix)).Free (p.child (.key m)) := by
      intro m hm
      rw [List.mem_cons, not_or] at hm
      have hlm : Segment.key l ≠ .key m := fun he => hm.1 (Segment.key.inj he).symm
      refine free_record_sibling w hlm ?_
      rintro _ ⟨r, rfl⟩
      rw [get?_cleared_of_not_below before ix]
      · exact h m hm.2 _ (List.prefix_append _ r)
      · rw [Path.child_append, Path.child_isPrefix_iff]
        exact hlm
    rw [recordMembers, get?_recordMembers (l :: before) ms k hfree, List.reverse_cons, List.lookup_append]
    cases hk : List.lookup k ms.reverse with
    | some c => rfl
    | none =>
      -- `l` is the last mention of `k`, or has nothing to do with `k`
      by_cases hl : l = k
      · subst hl
        rw [Option.none_or, lookup_cons, if_pos rfl]
        exact get?_record_append w q (free_cleared fun hl => h l hl)
      · have hne : ¬ p.child (.key l) <+: p.child (.key k) ++ q := by
          rw [Path.child_append, Path.child_isPrefix_iff, Segment.key.injEq]
          exact hl
        rw [Option.none_or, lookup_cons, if_neg hl, get?_record_of_not_below _ w hne,
          get?_cleared_of_not_below before ix hne]
        rfl

end

end Written

/-! ### What reading a text leaves -/

/-- Of what is written, the spans of the nodes are there, and nothing else. -/
theorem Tree.span?_ofWritten (w : Written) (p : Path) :
    (Tree.ofWritten w).span? p = (w.get? p).map Written.span :=
  Written.get?_record_append (p := []) w p fun q _ => PositionIndex.get?_empty q

/-- **Whatever names a text repeats, the paths with a span are those that lead to a node.** -/
theorem Json.span?_isSome_iff {text : String} {tree : Tree} (h : Json.read text = .ok tree) (p : Path) :
    (tree.span? p).isSome ↔ (tree.value.get? p).isSome := by
  obtain ⟨w, _, rfl⟩ := Json.read_eq_ok_iff.mp h
  rw [Tree.span?_ofWritten, show (Tree.ofWritten w).value = w.value from rfl, Written.get?_value,
    Option.isSome_map, Option.isSome_map]

/-- A repeated name inside a value that is overwritten in its turn leaves nothing behind. -/
theorem Json.span?_overwritten : ∃ tree,
    Json.read "\x7b\"a\":\x7b\"b\":[null],\"b\":\x7b\x7d\x7d,\"a\":[\x7b\"b\":true\x7d]\x7d" = .ok tree ∧
      (tree.span? [.key "a", .index 0, .key "b"]).isSome ∧ ¬ (tree.span? [.key "a", .key "b"]).isSome := by
  have hread : ((Json.read
      "\x7b\"a\":\x7b\"b\":[null],\"b\":\x7b\x7d\x7d,\"a\":[\x7b\"b\":true\x7d]\x7d").toOption.map fun t =>
        ((t.value.get? [.key "a", .index 0, .key "b"]).isSome, (t.value.get? [.key "a", .key "b"]).isSome))
        = some (true, false) := by
    decide +kernel
  cases htree : Json.read "\x7b\"a\":\x7b\"b\":[null],\"b\":\x7b\x7d\x7d,\"a\":[\x7b\"b\":true\x7d]\x7d" with
  | error e =>
    rw [htree] at hread
    cases hread
  | ok tree =>
    rw [htree, Except.toOption, Option.map_some, Option.some.injEq, Prod.mk.injEq] at hread
    refine ⟨tree, rfl, (Json.span?_isSome_iff htree _).mpr hread.1, ?_⟩
    rw [Json.span?_isSome_iff htree, hread.2]
    exact Bool.false_ne_true

end ApiLint
