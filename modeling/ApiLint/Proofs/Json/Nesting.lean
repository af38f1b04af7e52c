import ApiLint.Proofs.Json.Spans

/-!
# Spans are nested like the nodes

The span of a node lies strictly inside the spans of the nodes above it, and apart from those of all other nodes
(`Json.nests_of_read`).  This rests on one fact about every value that is read (`Json.encloses_of_value`): what
was written in it, mentions of a repeated name included, stands one behind the other between its ends.  The loop over
the entries of a container gives it, since an entry begins where the loop has come to and ends before its delimiter
(`Json.spaced_entries`).

Of a repeated name the last mention is the node.  The others stand in front of it in the text, and leave their room
unused.
-/

namespace ApiLint

/-! ### Parts of a value as written -/

namespace Written

def parts : Written → List Written
  | array _ items => items
  | object _ members => members.map Prod.snd
  | _ => []

/-- The first value ends before the second one begins. -/
def EndsBefore (v w : Written) : Prop :=
  v.span.last.offset ≤ w.span.first.offset

/-- The value covers some text, and its parts stand inside of it, one behind the other. -/
structure Encloses (w : Written) : Prop where
  nonempty : w.span.first.offset < w.span.last.offset
  inside : ∀ x ∈ w.parts, w.span.first.offset < x.span.first.offset ∧ x.span.last.offset < w.span.last.offset
  ordered : w.parts.Pairwise EndsBefore

/-- So it is with the value and everything in it. -/
def EnclosesAll (w : Written) : Prop :=
  ∀ p x, w.get? p = some x → x.Encloses

variable {w x y c d : Written} {p q : Path} {s t : Segment}

theorem get?_append (w : Written) (p q : Path) : w.get? (p ++ q) = (w.get? p).bind fun x => x.get? q := by
  induction p generalizing w with
  | nil => rfl
  | cons s p ih =>
    rw [List.cons_append, get?, get?]
    cases w.child? s with
    | none => rfl
    | some c => exact ih c

theorem mem_parts_of_child? (hc : w.child? s = some c) : c ∈ w.parts := by
  cases w with
  | array span items =>
    cases s with
    | index i => exact List.mem_of_getElem? hc
    | key k => cases hc
  | object span members =>
    cases s with
    | key k => exact List.mem_map_of_mem (List.mem_reverse.mp (mem_of_lookup hc))
    | index i => cases hc
  | _ => cases s <;> cases hc

/-- Different children stand apart. -/
theorem Encloses.apart (h : w.Encloses) (hc : w.child? s = some c) (hd : w.child? t = some d) (hst : s ≠ t) :
    c.EndsBefore d ∨ d.EndsBefore c := by
  have hordered := h.ordered
  cases w with
  | array span items =>
    cases s with
    | key k => cases hc
    | index i =>
      cases t with
      | key k => cases hd
      | index j =>
        obtain ⟨hi, rfl⟩ := List.getElem?_eq_some_iff.mp hc
        obtain ⟨hj, rfl⟩ := List.getElem?_eq_some_iff.mp hd
        have hij : i ≠ j := fun heq => hst (congrArg Segment.index heq)
        rcases Nat.lt_or_gt_of_ne hij with hlt | hlt
        · exact .inl (List.pairwise_iff_getElem.mp hordered i j hi hj hlt)
        · exact .inr (List.pairwise_iff_getElem.mp hordered j i hj hi hlt)
  | object span members =>
    cases s with
    | index i => cases hc
    | key k =>
      cases t with
      | index j => cases hd
      | key l =>
        -- a member of another name comes before or after
        obtain ⟨before, after, rfl, -⟩ := Json.Grammar.lookup_reverse_eq_some_iff.mp hc
        have hmem := List.mem_reverse.mp (mem_of_lookup hd)
        rw [parts, List.pairwise_map, List.pairwise_append, List.pairwise_cons] at hordered
        obtain ⟨-, ⟨hafter, -⟩, hbefore⟩ := hordered
        rcases List.mem_append.mp hmem with hmem | hmem
        · exact .inr (hbefore _ hmem _ List.mem_cons_self)
        · rcases List.mem_cons.mp hmem with heq | hmem
          · exact absurd (congrArg Segment.key (Prod.mk.inj heq).1).symm hst
          · exact .inl (hafter _ hmem)
  | _ => cases s <;> cases hc

namespace EnclosesAll

theorem self (h : w.EnclosesAll) : w.Encloses :=
  h [] w rfl

theorem child (h : w.EnclosesAll) (hc : w.child? s = some c) : c.EnclosesAll := by
  intro p x hx
  refine h (s :: p) x ?_
  rw [get?, hc]
  exact hx

theorem below (h : w.EnclosesAll) (hx : w.get? p = some x) : x.EnclosesAll := by
  intro q y hy
  refine h (p ++ q) y ?_
  rw [get?_append, hx]
  exact hy

/-- What is below a value stands strictly inside. -/
theorem inside (h : w.EnclosesAll) (hx : w.get? p = some x) (hp : p ≠ []) :
    w.span.first.offset < x.span.first.offset ∧ x.span.last.offset < w.span.last.offset := by
  induction p generalizing w with
  | nil => exact absurd rfl hp
  | cons s p ih =>
    obtain ⟨c, hc, hx⟩ := Option.bind_eq_some_iff.mp hx
    have hinside := h.self.inside c (mem_parts_of_child? hc)
    by_cases hnil : p = []
    · subst hnil
      obtain rfl := Option.some.inj hx
      exact hinside
    · have hbelow := ih (h.child hc) hx hnil
      omega

theorem within (h : w.EnclosesAll) (hx : w.get? p = some x) :
    w.span.first.offset ≤ x.span.first.offset ∧ x.span.last.offset ≤ w.span.last.offset := by
  by_cases hp : p = []
  · subst hp
    obtain rfl := Option.some.inj hx
    exact ⟨Nat.le_refl _, Nat.le_refl _⟩
  · have hinside := h.inside hx hp
    omega

/-- Of two values neither of which is in the other, one ends before the other begins. -/
theorem apart (h : w.EnclosesAll) (hx : w.get? p = some x) (hy : w.get? q = some y) (hpq : ¬ p <+: q)
    (hqp : ¬ q <+: p) : x.EndsBefore y ∨ y.EndsBefore x := by
  induction p generalizing w q with
  | nil => exact absurd List.nil_prefix hpq
  | cons s p ih =>
    cases q with
    | nil => exact absurd List.nil_prefix hqp
    | cons t q =>
      obtain ⟨c, hc, hx⟩ := Option.bind_eq_some_iff.mp hx
      obtain ⟨d, hd, hy⟩ := Option.bind_eq_some_iff.mp hy
      by_cases hst : s = t
      · subst hst
        obtain rfl := Option.some.inj (hc.symm.trans hd)
        rw [List.cons_prefix_cons, not_and] at hpq hqp
        exact ih (h.child hc) hx hy (hpq rfl) (hqp rfl)
      · have hxc := (h.child hc).within hx
        have hyd := (h.child hd).within hy
        rcases h.self.apart hc hd hst with hcd | hdc
        · exact .inl (hxc.2.trans (Nat.le_trans hcd hyd.1))
        · exact .inr (hyd.2.trans (Nat.le_trans hdc hxc.1))

end EnclosesAll

end Written

/-! ### Offsets -/

theorem Position.offset_afterAll (p : Position) (cs : List Char) :
    (p.afterAll cs).offset = p.offset + byteSize cs := by
  induction cs generalizing p with
  | nil => rfl
  | cons c cs ih =>
    rw [afterAll_cons, ih, byteSize_cons, after]
    split
    · rename_i hc
      rw [hc, ← Nat.add_assoc]
      rfl
    · rw [past, Nat.add_assoc]

namespace Json

open Grammar

namespace Cursor

theorem Moves.offset_le {c d : Cursor} (h : c.Moves d) : c.position.offset ≤ d.position.offset := by
  obtain ⟨cs, -, hposition⟩ := h
  rw [hposition, Position.offset_afterAll]
  exact Nat.le_add_right _ _

/-- A move that takes something off the text takes bytes off it. -/
theorem Moves.offset_lt {c d : Cursor} (h : c.Moves d) (hlength : d.rest.length < c.rest.length) :
    c.position.offset < d.position.offset := by
  obtain ⟨cs, hrest, hposition⟩ := h
  rw [hposition, Position.offset_afterAll]
  cases cs with
  | nil =>
    rw [hrest, List.nil_append] at hlength
    exact absurd hlength (Nat.lt_irrefl _)
  | cons e cs =>
    have hsize := e.utf8Size_pos
    rw [byteSize_cons]
    omega

end Cursor

/-! ### Containers -/

/-- The values stand one behind the other from `first` on, and end before `last`. -/
structure Spaced (first : Nat) (ws : List Written) (last : Nat) : Prop where
  inside : ∀ w ∈ ws, first ≤ w.span.first.offset ∧ w.span.last.offset < last
  ordered : ws.Pairwise Written.EndsBefore

theorem Spaced.nil (first last : Nat) : Spaced first [] last :=
  ⟨fun _ hw => absurd hw List.not_mem_nil, List.Pairwise.nil⟩

theorem Spaced.cons {first middle last : Nat} {w : Written} {ws : List Written}
    (hfirst : first ≤ w.span.first.offset) (hnonempty : w.span.first.offset < w.span.last.offset)
    (hlast : w.span.last.offset ≤ middle) (hmiddle : middle < last) (h : Spaced middle ws last) :
    Spaced first (w :: ws) last := by
  refine ⟨fun x hx => ?_, List.pairwise_cons.mpr ⟨fun x hx => ?_, h.ordered⟩⟩
  · rcases List.mem_cons.mp hx with rfl | hx
    · omega
    · have hinside := h.inside x hx
      omega
  · exact Nat.le_trans hlast (h.inside x hx).1

/-- What is read where the reader has come to, `part` of it being a value. -/
def ReadsWithin {α : Type} (read : (c : Cursor) → Step c α) (part : α → Written) : Prop :=
  ∀ {c d : Cursor} {a : α} {further : d.rest.length < c.rest.length}, read c = .ok (a, ⟨d, further⟩) →
    c.position.offset ≤ (part a).span.first.offset ∧ (part a).span.first.offset < (part a).span.last.offset ∧
      (part a).span.last.offset ≤ d.position.offset

section Containers

variable {α : Type} {close : Char} {problem : Problem} {entry : (c : Cursor) → Step c α} {part : α → Written}

/-- The loop over the entries leaves their values one behind the other. -/
theorem spaced_entries (hentry : Moving entry) (hpart : ReadsWithin entry part) (hclose : Closing close)
    {c d : Cursor} {as : List α} {further : d.rest.length < c.rest.length}
    (h : entries close problem entry c = .ok (as, ⟨d, further⟩)) :
    Spaced c.position.offset (as.map part) d.position.offset := by
  fun_induction entries close problem entry c generalizing as d with
  | case1 | case2 | case4 => cases h
  | case3 c a c₁ h₁ he c₂ h₂ hd =>
    cases h
    obtain ⟨hfirst, hnonempty, hlast⟩ := hpart he
    have hclosed := (moves_delimiter hclose hd).offset_lt h₂
    exact .cons hfirst hnonempty hlast hclosed (.nil _ _)
  | case5 c a c₁ h₁ he c₂ h₂ hd as c₃ h₃ hentries ih =>
    cases h
    obtain ⟨hfirst, hnonempty, hlast⟩ := hpart he
    have hcomma := (moves_delimiter hclose hd).offset_lt h₂
    have hrest := (moves_entries hentry hclose hentries).1.offset_lt h₃
    exact .cons hfirst hnonempty (by omega) hrest (ih hentries)

theorem spaced_afterBracket (hentry : Moving entry) (hpart : ReadsWithin entry part) (hclose : Closing close)
    {c d : Cursor} {as : List α} {further : d.rest.length < c.rest.length}
    (h : afterBracket close problem entry c = .ok (as, ⟨d, further⟩)) :
    Spaced c.position.offset (as.map part) d.position.offset := by
  unfold afterBracket at h
  split at h
  · exact spaced_entries hentry hpart hclose h
  · split at h
    · cases h
      exact .nil _ _
    · exact spaced_entries hentry hpart hclose h

/-- The brackets stand in front of the entries and behind them. -/
theorem spaced_container (hentry : Moving entry) (hpart : ReadsWithin entry part) (hclose : Closing close)
    {c d : Cursor} {as : List α} {further : d.rest.length < c.rest.length}
    (h : container close problem entry c = .ok (as, ⟨d, further⟩)) :
    Spaced (c.position.offset + 1) (as.map part) d.position.offset := by
  unfold container at h
  split at h
  · cases h
  · rename_i bracket cs _
    split at h
    · cases h
    · rename_i hafter
      cases h
      have hspaced := spaced_afterBracket hentry hpart hclose hafter
      have hbracket : c.position.offset + 1 ≤ (c.position.past bracket).offset :=
        Nat.add_le_add_left bracket.utf8Size_pos _
      exact ⟨fun w hw => (hspaced.inside w hw).imp_left hbracket.trans, hspaced.ordered⟩

end Containers

theorem readsWithin_member {element : (c : Cursor) → Step c Written} (helement : ReadsWithin element id) :
    ReadsWithin (member element) Prod.snd := by
  intro c d m further h
  unfold member at h
  split at h
  · cases h
  · rename_i k c₁ h₁ hkey
    split at h
    · cases h
    · rename_i w c₂ h₂ hvalue
      cases h
      have hmoves := (moves_key hkey).offset_le
      have hwithin := helement hvalue
      exact ⟨hmoves.trans hwithin.1, hwithin.2⟩

/-! ### Values -/

theorem readsWithin_value (levels : Nat) : ReadsWithin (value levels) id := by
  intro c d w further h
  cases levels with
  | zero =>
    rw [value] at h
    cases h
  | succ levels =>
    obtain ⟨cs, hcs, hpasses, hspan⟩ := exists_covered h
    obtain ⟨first, rest, rfl, -⟩ := exists_first_of_valueText hcs
    have hlength : d.rest.length < c.skip.rest.length := by
      rw [hpasses.1, List.length_append, List.length_cons]
      omega
    have hskip := c.moves_skip.offset_le
    have hvalue := Cursor.Moves.offset_lt ⟨_, hpasses⟩ hlength
    rw [id, hspan]
    exact ⟨hskip, hvalue, Nat.le_refl _⟩

/-- **What was written in a value stands inside of it, one behind the other.** -/
theorem encloses_of_value {levels : Nat} {c d : Cursor} {w : Written} {further : d.rest.length < c.rest.length}
    (h : value levels c = .ok (w, ⟨d, further⟩)) : w.Encloses := by
  have hnonempty := (readsWithin_value levels h).2.1
  cases levels with
  | zero =>
    rw [value] at h
    cases h
  | succ levels =>
    have hmoving : Moving (value levels) := moving_value levels
    have hwithin : ReadsWithin (value levels) id := readsWithin_value levels
    have hspan := (readFrom_of_value hmoving h).span
    have hspaced : ∀ {ws}, Spaced (c.skip.position.offset + 1) ws d.position.offset → w.parts = ws →
        w.Encloses := by
      rintro ws hws rfl
      refine ⟨hnonempty, fun x hx => ?_, hws.ordered⟩
      rw [hspan]
      exact hws.inside x hx
    cases hskip : c.skip.rest with
    | nil =>
      rw [value, hskip] at h
      cases h
    | cons first rest =>
      rw [value_of_skip hskip] at h
      -- an object and an array have parts, and nothing else has
      split at h
      · obtain ⟨ms, _, hread, rfl⟩ := spanned_eq_ok h
        have hmember : Moving (member (value levels)) := fun h => (moves_member hmoving h).1
        exact hspaced (spaced_container hmember (readsWithin_member hwithin) closing_brace hread) rfl
      split at h
      · obtain ⟨items, _, hread, rfl⟩ := spanned_eq_ok h
        have hitems := spaced_container hmoving hwithin closing_bracket hread
        rw [List.map_id] at hitems
        exact hspaced hitems rfl
      iterate 5
        split at h
        · obtain ⟨_, _, _, rfl⟩ := spanned_eq_ok h
          exact hspaced (.nil _ _) rfl
      cases h

theorem enclosesAll_of_readWritten {text : List Char} {w : Written} (h : readWritten text = .ok w) :
    w.EnclosesAll := by
  unfold readWritten at h
  split at h
  · cases h
  · rename_i w' d further hvalue
    split at h
    · obtain rfl := Except.ok.inj h
      intro p x hx
      obtain ⟨n, -, c', d', further', -, hread⟩ := exists_value_of_get? hvalue hx
      exact encloses_of_value hread
    · cases h

/-! ### Spans of a text -/

theorem exists_get?_of_span? {w : Written} {p : Path} {s : Span} (h : (Tree.ofWritten w).span? p = some s) :
    ∃ x, w.get? p = some x ∧ x.span = s := by
  rw [Tree.span?_ofWritten] at h
  exact Option.map_eq_some_iff.mp h

theorem last_le_of_read {text : String} {w x : Written} {p : Path} (h : read text = .ok (Tree.ofWritten w))
    (hx : w.get? p = some x) : x.span.last.offset ≤ text.utf8ByteSize := by
  have hvalue : (Tree.ofWritten w).value.get? p = some x.value := by
    rw [show (Tree.ofWritten w).value = w.value from rfl, Written.get?_value, hx, Option.map_some]
  obtain ⟨before, piece, after, htext, hspan, -⟩ := exists_piece h hvalue
  rw [Tree.span?_ofWritten, hx, Option.map_some, Option.some.injEq] at hspan
  rw [hspan, ← String.ofList_toList (s := text), utf8ByteSize_ofList, htext, byteSize_append]
  exact Nat.le_add_right _ _

/-- The member of a name is its last mention, and the others end before it begins. -/
theorem exists_lastMention {w v : Written} (hall : w.EnclosesAll) {p : Path} {k : String}
    (hv : w.get? (p.child (.key k)) = some v) : ∃ span before after,
      w.get? p = some (.object span (before ++ (k, v) :: after)) ∧
        (∀ u, (k, u) ∈ before → u.EndsBefore v) ∧ ∀ u, (k, u) ∉ after := by
  rw [Path.child_eq, Written.get?_append, Option.bind_eq_some_iff] at hv
  obtain ⟨x, hx, hv⟩ := hv
  obtain ⟨c, hc, hv⟩ := Option.bind_eq_some_iff.mp hv
  obtain rfl := Option.some.inj hv
  cases x with
  | object span members =>
    obtain ⟨before, after, rfl, hafter⟩ := lookup_reverse_eq_some_iff.mp hc
    have hordered := (hall p _ hx).ordered
    rw [Written.parts, List.pairwise_map, List.pairwise_append] at hordered
    obtain ⟨-, -, hbefore⟩ := hordered
    exact ⟨span, before, after, hx, fun u hu => hbefore (k, u) hu (k, c) List.mem_cons_self, hafter⟩
  | _ => cases hc

/-- The spans of the nodes are nested as the nodes are. -/
structure Nests (text : String) (tree : Tree) : Prop where
  /-- A span covers something, and nothing outside of the text. -/
  bounded : ∀ p s, tree.span? p = some s →
    s.first.offset < s.last.offset ∧ s.last.offset ≤ text.utf8ByteSize
  /-- What is below a node lies strictly inside. -/
  inside : ∀ p q s t, tree.span? p = some s → tree.span? q = some t → p <+: q → p ≠ q →
    s.first.offset < t.first.offset ∧ t.last.offset < s.last.offset
  /-- Where neither is below the other, one ends before the other begins. -/
  apart : ∀ p q s t, tree.span? p = some s → tree.span? q = some t → ¬ p <+: q → ¬ q <+: p →
    s.last.offset ≤ t.first.offset ∨ t.last.offset ≤ s.first.offset
  /-- The span of a member is that of a mention of its name, and every other mention ends before. -/
  lastMention : ∀ p k s, tree.span? (p.child (.key k)) = some s → ∃ w span before v after,
    readWritten text.toList = .ok w ∧ w.get? p = some (.object span (before ++ (k, v) :: after)) ∧ v.span = s ∧
      (∀ u, (k, u) ∈ before → u.span.last.offset ≤ s.first.offset) ∧ ∀ u, (k, u) ∉ after

/-- **The spans of a text that is read are nested as its nodes are**, whatever names are repeated. -/
theorem nests_of_read {text : String} {tree : Tree} (h : read text = .ok tree) : Nests text tree := by
  obtain ⟨w, hw, rfl⟩ := read_eq_ok_iff.mp h
  have hall := enclosesAll_of_readWritten hw
  constructor
  case bounded =>
    intro p s hs
    obtain ⟨x, hx, rfl⟩ := exists_get?_of_span? hs
    exact ⟨(hall p x hx).nonempty, last_le_of_read h hx⟩
  case inside =>
    rintro p _ s t hs ht ⟨r, rfl⟩ hne
    obtain ⟨x, hx, rfl⟩ := exists_get?_of_span? hs
    obtain ⟨y, hy, rfl⟩ := exists_get?_of_span? ht
    rw [Written.get?_append, hx, Option.bind_some] at hy
    refine (hall.below hx).inside hy ?_
    rintro rfl
    exact hne (List.append_nil p).symm
  case apart =>
    intro p q s t hs ht hpq hqp
    obtain ⟨x, hx, rfl⟩ := exists_get?_of_span? hs
    obtain ⟨y, hy, rfl⟩ := exists_get?_of_span? ht
    exact hall.apart hx hy hpq hqp
  case lastMention =>
    intro p k s hs
    obtain ⟨v, hv, rfl⟩ := exists_get?_of_span? hs
    obtain ⟨span, before, after, hx, hbefore, hafter⟩ := exists_lastMention hall hv
    exact ⟨w, span, before, v, after, hw, hx, rfl, hbefore, hafter⟩

/-- The last `a` is the node, in the place of the first, and what the first held is not recorded. -/
theorem nests_of_read_repeated : ∃ tree span,
    read "\x7b\"a\":\x7b\"b\":[1]\x7d,\"c\":2,\"a\":[\"é\"]\x7d" = .ok tree ∧
      tree.span? [.key "a", .index 0] = some span ∧ span.first.offset = 26 ∧
      Nests "\x7b\"a\":\x7b\"b\":[1]\x7d,\"c\":2,\"a\":[\"é\"]\x7d" tree := by
  have hread : (read "\x7b\"a\":\x7b\"b\":[1]\x7d,\"c\":2,\"a\":[\"é\"]\x7d").toOption.bind
      (fun t => (t.span? [.key "a", .index 0]).map fun span => span.first.offset) = some 26 := by
    decide +kernel
  cases htree : read "\x7b\"a\":\x7b\"b\":[1]\x7d,\"c\":2,\"a\":[\"é\"]\x7d" with
  | error e =>
    rw [htree] at hread
    cases hread
  | ok tree =>
    rw [htree, Except.toOption, Option.bind_some, Option.map_eq_some_iff] at hread
    obtain ⟨span, hspan, hfirst⟩ := hread
    exact ⟨tree, span, rfl, hspan, hfirst, nests_of_read htree⟩

end Json

end ApiLint
