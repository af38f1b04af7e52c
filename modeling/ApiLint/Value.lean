import ApiLint.Decimal
import ApiLint.Path

/-!
# JSON values

A number is a whole number where it was written as one and fits in 64 bits, and otherwise the bits of a
binary floating-point number.  The members of an object are kept in the order of their first mention.
`Value.get?` walks a path down from a value; the main facts are `get?_append`, that walking a path in
two parts is walking it at once, and `sizeOf_lt_of_mem_children`, by which every recursion over nodes
ends.
-/

namespace ApiLint

inductive Number where
  | int (i : Int)
  | real (bits : UInt64)
  deriving DecidableEq, Repr

namespace Number

def ofFloat (f : Float) : Number :=
  .real f.toBits

def toFloat : Number → Float
  | int i => if 0 ≤ i then i.natAbs.toUInt64.toFloat else -i.natAbs.toUInt64.toFloat
  | real bits => Float.ofBits bits

/-- The number a numeral stands for: whole numbers below 2^64 and not below -2^63 stay whole, except
minus zero, and `none` is too large. -/
def ofNumeral? (n : Numeral) : Option Number :=
  let m := digitsValue n.whole
  if n.isWhole && !n.negative && m < wordLimit then some (.int m)
  else if n.isWhole && n.negative && 0 < m && m ≤ signedLimit then some (.int (-(m : Int)))
  else n.scaled?.map ofFloat

def ofChars? (cs : List Char) : Option Number :=
  (Numeral.ofChars? cs).bind ofNumeral?

end Number

inductive Value where
  | null
  | bool (b : Bool)
  | number (n : Number)
  | string (s : String)
  | array (items : List Value)
  | object (members : List (String × Value))
  deriving Repr

/-! ### Members in order -/

/-- Puts `v` under `k`: in the place of the value that was there, or else at the end. -/
def assign {α : Type} (k : String) (v : α) : List (String × α) → List (String × α)
  | [] => [(k, v)]
  | (l, w) :: rest => if l = k then (l, v) :: rest else (l, w) :: assign k v rest

/-- Each name in the place of its first mention, with the value of its last. -/
def lastMentions {α : Type} (ms : List (String × α)) : List (String × α) :=
  ms.foldl (fun acc m => assign m.1 m.2 acc) []

theorem lookup_cons {α : Type} (k l : String) (v : α) (ms : List (String × α)) :
    List.lookup k ((l, v) :: ms) = if l = k then some v else List.lookup k ms := by
  rw [List.lookup_cons]
  by_cases hl : l = k
  · rw [if_pos hl, beq_iff_eq.mpr hl.symm]
  · rw [if_neg hl, beq_eq_false_iff_ne.mpr (Ne.symm hl)]

theorem mem_of_lookup {α : Type} {k : String} {v : α} {ms : List (String × α)}
    (h : List.lookup k ms = some v) : (k, v) ∈ ms := by
  obtain ⟨before, after, rfl, -⟩ := List.lookup_eq_some_iff.mp h
  exact List.mem_append_right before (List.mem_cons_self ..)

theorem lookup_assign {α : Type} (k l : String) (v : α) (ms : List (String × α)) :
    List.lookup l (assign k v ms) = if k = l then some v else List.lookup l ms := by
  induction ms with
  | nil => simp [assign, lookup_cons]
  | cons m rest ih =>
    obtain ⟨j, w⟩ := m
    by_cases hj : j = k
    · subst hj
      by_cases hl : j = l <;> simp [assign, lookup_cons, hl]
    · by_cases hl : j = l
      · subst hl
        simp [assign, hj, Ne.symm hj]
      · simp [assign, lookup_cons, hj, hl, ih]

theorem lookup_map {α β : Type} (f : String → α → β) (k : String) (ms : List (String × α)) :
    List.lookup k (ms.map fun m => (m.1, f m.1 m.2)) = (List.lookup k ms).map (f k) := by
  induction ms with
  | nil => rfl
  | cons m ms ih =>
    obtain ⟨l, v⟩ := m
    rw [List.map_cons, lookup_cons, lookup_cons]
    by_cases hl : l = k
    · rw [if_pos hl, if_pos hl, hl]
      rfl
    · rw [if_neg hl, if_neg hl, ih]

/-- The value under a name is that of the last mention. -/
theorem lookup_lastMentions {α : Type} (k : String) (ms : List (String × α)) :
    List.lookup k (lastMentions ms) = List.lookup k ms.reverse := by
  have hfold : ∀ acc : List (String × α), List.lookup k (ms.foldl (fun acc m => assign m.1 m.2 acc) acc)
      = (List.lookup k ms.reverse).or (List.lookup k acc) := by
    induction ms with
    | nil => intro acc; rfl
    | cons m ms ih =>
      intro acc
      obtain ⟨l, v⟩ := m
      rw [List.foldl_cons, ih, lookup_assign, List.reverse_cons, List.lookup_append, lookup_cons]
      by_cases hl : l = k
      · simp [hl]
      · simp [hl]
  rw [lastMentions, hfold [], List.lookup_nil, Option.or_none]

namespace Value

/-! ### Steps down a value -/

def member? (k : String) : Value → Option Value
  | object members => List.lookup k members
  | _ => none

def element? (i : Nat) : Value → Option Value
  | array items => items[i]?
  | _ => none

def child? (v : Value) : Segment → Option Value
  | .key k => v.member? k
  | .index i => v.element? i

def get? (v : Value) : Path → Option Value
  | [] => some v
  | s :: p => (v.child? s).bind fun c => c.get? p

def children : Value → List (Segment × Value)
  | array items => items.zipIdx.map fun c => (.index c.2, c.1)
  | object members => members.map fun m => (.key m.1, m.2)
  | _ => []

def string? : Value → Option String
  | string s => some s
  | _ => none

def items? : Value → Option (List Value)
  | array items => some items
  | _ => none

def members? : Value → Option (List (String × Value))
  | object members => some members
  | _ => none

def isObject : Value → Bool
  | object _ => true
  | _ => false

@[simp] theorem get?_nil (v : Value) : v.get? [] = some v := rfl

@[simp] theorem get?_cons (v : Value) (s : Segment) (p : Path) :
    v.get? (s :: p) = (v.child? s).bind fun c => c.get? p := rfl

theorem get?_append (v : Value) (p q : Path) :
    v.get? (p ++ q) = (v.get? p).bind fun c => c.get? q := by
  induction p generalizing v with
  | nil => rfl
  | cons s p ih => cases h : v.child? s <;> simp [h, ih]

/-! ### All nodes -/

mutual

/-- Every node of a value that stands at `p`, a node before its children. -/
def nodesFrom (p : Path) : Value → List (Path × Value)
  | array items => (p, array items) :: itemNodes p 0 items
  | object members => (p, object members) :: memberNodes p members
  | v => [(p, v)]

def itemNodes (p : Path) (i : Nat) : List Value → List (Path × Value)
  | [] => []
  | v :: vs => nodesFrom (p.child (.index i)) v ++ itemNodes p (i + 1) vs

def memberNodes (p : Path) : List (String × Value) → List (Path × Value)
  | [] => []
  | (k, v) :: ms => nodesFrom (p.child (.key k)) v ++ memberNodes p ms

end

def nodes (v : Value) : List (Path × Value) :=
  nodesFrom [] v

theorem self_mem_nodesFrom (p : Path) (v : Value) : (p, v) ∈ nodesFrom p v := by
  cases v <;> simp [nodesFrom]

theorem mem_memberNodes {p : Path} {k : String} {c : Value} {ms : List (String × Value)}
    (h : (k, c) ∈ ms) {n : Path × Value} (hn : n ∈ nodesFrom (p.child (.key k)) c) :
    n ∈ memberNodes p ms := by
  induction ms with
  | nil => simp at h
  | cons m ms ih =>
    obtain ⟨l, v⟩ := m
    simp only [memberNodes, List.mem_append]
    rcases List.mem_cons.1 h with heq | h
    · simp only [Prod.mk.injEq] at heq
      obtain ⟨rfl, rfl⟩ := heq
      exact Or.inl hn
    · exact Or.inr (ih h)

theorem mem_itemNodes {p : Path} {c : Value} {vs : List Value} {i j : Nat}
    (h : vs[i]? = some c) {n : Path × Value} (hn : n ∈ nodesFrom (p.child (.index (j + i))) c) :
    n ∈ itemNodes p j vs := by
  induction vs generalizing i j with
  | nil => simp at h
  | cons v vs ih =>
    simp only [itemNodes, List.mem_append]
    cases i with
    | zero =>
      simp only [List.getElem?_cons_zero, Option.some.injEq] at h
      subst h
      exact Or.inl hn
    | succ i =>
      simp only [List.getElem?_cons_succ] at h
      refine Or.inr (ih h ?_)
      rwa [show j + 1 + i = j + (i + 1) by omega]

theorem mem_nodesFrom_of_child? {p : Path} {v c : Value} {s : Segment} (h : v.child? s = some c)
    {n : Path × Value} (hn : n ∈ nodesFrom (p.child s) c) : n ∈ nodesFrom p v := by
  cases s with
  | key k =>
    cases v with
    | object members =>
      have hm := mem_of_lookup (show List.lookup k members = some c from h)
      simp only [nodesFrom, List.mem_cons]
      exact Or.inr (mem_memberNodes hm hn)
    | _ => simp [child?, member?] at h
  | index i =>
    cases v with
    | array items =>
      simp only [nodesFrom, List.mem_cons]
      refine Or.inr (mem_itemNodes (show items[i]? = some c from h) ?_)
      rwa [Nat.zero_add]
    | _ => simp [child?, element?] at h

theorem mem_nodesFrom_of_get? {p q : Path} {v w : Value} (h : v.get? q = some w) :
    (p ++ q, w) ∈ nodesFrom p v := by
  induction q generalizing p v with
  | nil =>
    simp only [get?_nil, Option.some.injEq] at h
    subst h
    simpa using self_mem_nodesFrom p v
  | cons s q ih =>
    simp only [get?_cons, Option.bind_eq_some_iff] at h
    obtain ⟨c, hc, hq⟩ := h
    refine mem_nodesFrom_of_child? hc ?_
    have := ih (p := p.child s) hq
    simpa [Path.child] using this

/-- Every value that a path leads to is among the nodes. -/
theorem mem_nodes_of_get? {p : Path} {v w : Value} (h : v.get? p = some w) : (p, w) ∈ v.nodes :=
  mem_nodesFrom_of_get? (p := []) h

/-! ### Children are smaller -/

theorem sizeOf_pos (v : Value) : 0 < sizeOf v := by
  cases v <;> simp only [null.sizeOf_spec, bool.sizeOf_spec, number.sizeOf_spec, string.sizeOf_spec,
    array.sizeOf_spec, object.sizeOf_spec] <;> omega

theorem sizeOf_lt_of_mem {ms : List (String × Value)} {k : String} {v : Value}
    (h : (k, v) ∈ ms) : sizeOf v < 1 + sizeOf ms := by
  have := List.sizeOf_lt_of_mem h
  have : sizeOf (k, v) = 1 + sizeOf k + sizeOf v := rfl
  omega

theorem sizeOf_lt_of_mem_children {v c : Value} {s : Segment} (h : (s, c) ∈ v.children) :
    sizeOf c < sizeOf v := by
  cases v with
  | array items =>
    simp only [children, List.mem_map, Prod.mk.injEq] at h
    obtain ⟨⟨w, i⟩, hw, _, rfl⟩ := h
    have : sizeOf w < sizeOf items := List.sizeOf_lt_of_mem (List.fst_mem_of_mem_zipIdx hw)
    simp only [array.sizeOf_spec]
    omega
  | object members =>
    simp only [children, List.mem_map, Prod.mk.injEq] at h
    obtain ⟨⟨k, w⟩, hw, _, rfl⟩ := h
    simpa using sizeOf_lt_of_mem hw
  | _ => simp [children] at h

theorem mem_children_of_child? {v c : Value} {s : Segment} (h : v.child? s = some c) :
    (s, c) ∈ v.children := by
  cases s with
  | key k =>
    cases v with
    | object members =>
      have hm := mem_of_lookup (show List.lookup k members = some c from h)
      simp only [children, List.mem_map, Prod.mk.injEq]
      exact ⟨(k, c), hm, rfl, rfl⟩
    | _ => simp [child?, member?] at h
  | index i =>
    cases v with
    | array items =>
      have hi : items[i]? = some c := h
      simp only [children, List.mem_map, Prod.mk.injEq]
      exact ⟨(c, i), List.mk_mem_zipIdx_iff_getElem?.2 hi, rfl, rfl⟩
    | _ => simp [child?, element?] at h

theorem sizeOf_lt_of_child? {v c : Value} {s : Segment} (h : v.child? s = some c) :
    sizeOf c < sizeOf v :=
  sizeOf_lt_of_mem_children (mem_children_of_child? h)

end Value

end ApiLint
