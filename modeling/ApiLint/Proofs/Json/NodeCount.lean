import ApiLint.Proofs.DocumentOrder
import ApiLint.Proofs.Graph.Consistency
import ApiLint.Proofs.Json.Acceptance
import ApiLint.Proofs.Text.Points

/-!
# A value has no more nodes than its text has characters

Every production of the grammar takes at least one character for itself, the bracket, the quote or the first
digit, and leaves the rest to the parts (`ValueText.length_nodes_le`).  A name that is mentioned again denotes
one member, so the members of an object have no more nodes than those of its text
(`sum_lastMentions_le`).  Characters take at least one byte each, hence `Document.length_nodes_le`.
-/

namespace ApiLint

namespace Value

theorem length_nodes_array (items : List Value) :
    (array items).nodes.length = 1 + (items.map fun v => v.nodes.length).sum := by
  rw [nodes_eq, List.length_cons, children, List.flatMap_map, List.length_flatMap, Nat.add_comm]
  simp only [List.length_map]
  rw [← List.zipIdx_map_fst 0 items, List.map_map, List.zipIdx_map_fst]
  rfl

theorem length_nodes_object (members : List (String × Value)) :
    (object members).nodes.length = 1 + (members.map fun m => m.2.nodes.length).sum := by
  rw [nodes_eq, List.length_cons, children, List.flatMap_map, List.length_flatMap, Nat.add_comm]
  simp only [List.length_map]

end Value

/-- Putting a value under a name adds at most what it counts for. -/
theorem sum_assign_le {α : Type} (count : α → Nat) (k : String) (a : α) (ms : List (String × α)) :
    ((assign k a ms).map fun m => count m.2).sum ≤ (ms.map fun m => count m.2).sum + count a := by
  induction ms with
  | nil => exact Nat.le_of_eq (Nat.add_comm ..)
  | cons m ms ih =>
    rw [assign]
    split
    · simp only [List.map_cons, List.sum_cons]
      omega
    · simp only [List.map_cons, List.sum_cons]
      omega

theorem sum_lastMentions_le {α : Type} (count : α → Nat) (ms : List (String × α)) :
    ((lastMentions ms).map fun m => count m.2).sum ≤ (ms.map fun m => count m.2).sum := by
  induction ms using List.reverseRecOn with
  | nil => exact Nat.le_refl _
  | append_singleton ms m ih =>
    have hassign := sum_assign_le count m.1 m.2 (lastMentions ms)
    rw [Json.Grammar.lastMentions_concat, List.map_append, List.sum_append, List.map_singleton,
      List.sum_singleton]
    omega

namespace Json.Grammar

section

variable {α : Type} {E : List Char → α → Prop} {count : α → Nat} {cs : List Char}
  (hE : ∀ cs a, E cs a → count a ≤ cs.length)

include hE

theorem Padded.count_le {a : α} (h : Padded E cs a) : count a ≤ cs.length := by
  cases h with
  | @mk ws cs ws' a hws ha hws' =>
    have hcount := hE cs a ha
    simp only [List.length_append]
    omega

theorem Separated.sum_le {as : List α} (h : Separated E cs as) : (as.map count).sum ≤ cs.length := by
  induction h with
  | @one cs a ha => simpa using hE cs a ha
  | @more cs ds a as ha _ ih =>
    have hcount := hE cs a ha
    simp only [List.map_cons, List.sum_cons, List.length_append, List.length_cons]
    omega

/-- The brackets take two characters for themselves. -/
theorem Enclosed.sum_lt {left right : Char} {as : List α} (h : Enclosed left right E cs as) :
    1 + (as.map count).sum ≤ cs.length := by
  cases h with
  | empty => simp
  | entries has =>
    have hsum := has.sum_le hE
    simp only [List.length_cons, List.length_append, List.length_nil]
    omega

theorem Member.count_le {m : String × α} (h : Member E cs m) : count m.2 ≤ cs.length := by
  cases h with
  | mk _ ha =>
    have hcount := ha.count_le hE
    simp only [List.length_append, List.length_cons]
    omega

end

theorem NumberText.length_pos {cs : List Char} {m : Number} (h : NumberText cs m) : 0 < cs.length := by
  cases h with
  | @mk n m hn _ =>
    have hwhole := List.length_pos_of_ne_nil hn.whole.1
    simp only [numeralChars, List.length_append]
    omega

theorem ValueOver.length_nodes_le {inner : List Char → Value → Prop}
    (hinner : ∀ cs v, inner cs v → v.nodes.length ≤ cs.length) {cs : List Char} {v : Value}
    (h : ValueOver inner cs v) : v.nodes.length ≤ cs.length := by
  cases h with
  | null | true | false => exact Nat.le_add_left 1 _
  | number hn => exact hn.length_pos
  | string hs =>
    cases hs
    exact Nat.le_add_left 1 _
  | array hitems =>
    rw [Value.length_nodes_array]
    exact hitems.sum_lt fun cs v hv => hv.count_le hinner
  | @object cs ms members hms hcollected =>
    obtain rfl := collected_iff.mp hcollected
    have htext := hms.sum_lt fun cs m hm => hm.count_le hinner
    have hmembers := sum_lastMentions_le (fun v : Value => v.nodes.length) ms
    rw [Value.length_nodes_object]
    omega

theorem ValueText.length_nodes_le {n : Nat} {cs : List Char} {v : Value} (h : ValueText n cs v) :
    v.nodes.length ≤ cs.length := by
  induction n generalizing cs v with
  | zero => exact ValueOver.length_nodes_le (fun cs v hv => hv.elim) h
  | succ n ih => exact ValueOver.length_nodes_le (fun cs v hv => ih hv) h

theorem JsonText.length_nodes_le {cs : List Char} {v : Value} (h : JsonText cs v) :
    v.nodes.length ≤ cs.length := by
  cases h with
  | @mk mark cs v _ hv =>
    have hcount := hv.count_le fun cs v hv => hv.length_nodes_le
    rw [List.length_append]
    omega

end Json.Grammar

theorem length_le_byteSize (cs : List Char) : cs.length ≤ byteSize cs := by
  induction cs with
  | nil => exact Nat.le_refl _
  | cons c cs ih =>
    have hsize := c.utf8Size_pos
    rw [List.length_cons, byteSize_cons]
    omega

/-- **A document has no more nodes than its text has bytes.** -/
theorem Document.length_nodes_le {id : DocumentId} {content : String} {d : Document}
    (h : Document.read id content = .ok d) : d.value.nodes.length ≤ content.utf8ByteSize := by
  obtain ⟨tree, htree, rfl⟩ := Document.exists_of_read h
  have hnodes := (Json.jsonText_of_read htree).length_nodes_le
  have hbytes := length_le_byteSize content.toList
  rw [← utf8ByteSize_ofList, String.ofList_toList] at hbytes
  exact Nat.le_trans hnodes hbytes

end ApiLint
