import ApiLint.Proofs.Query.Matches
import ApiLint.Proofs.Query.Steps
import Mathlib.Algebra.Group.Nat.Defs

/-!
# Canonical texts are queries

The canonical text of a path is made by one function and may be read by another, that of queries.  Read so, it is the
query that takes one child step for each segment (`Path.read_text`), and such a query comes to the node that the path
leads to and to nothing else (`Path.run_query`).  So a text tells the path (`Path.text_injective`).

A query holds the indexes of its selectors in 64 bits with a sign, so the indexes of the path must be below `2 ^ 63`.
-/

namespace ApiLint

open Json.Grammar (Stops)
open Query.Reader

/-! ### Characters of names -/

theorem isNameRest_of_isNameStart {c : Char} (h : isNameStart c = true) : isNameRest c = true := by
  simp only [isNameStart, isNameRest, Char.isAlphanum, Bool.or_eq_true] at h ⊢
  tauto

/-- A name that is written without quotes is read up to its end. -/
theorem isMemberChar_of_isNameRest {c : Char} (h : isNameRest c = true) : isMemberChar c = true := by
  have hblank : isBlank c = false := by
    simp only [isNameRest, Bool.or_eq_true, decide_eq_true_eq] at h
    rcases h with (h | rfl) | rfl
    · exact isBlank_of_isAlphanum h
    · decide
    · decide
  have hmark : ".[]^()'\"".toList.contains c = false := by
    rw [Bool.eq_false_iff]
    intro hc
    have hnone : ".[]^()'\"".toList.any isNameRest = false := by decide
    exact List.any_eq_false.mp hnone c (List.contains_iff_mem.mp hc) h
  rw [isMemberChar, hblank, hmark]
  rfl

/-! ### Reading a canonical text -/

namespace Segment

def selector : Segment → Query.Selector
  | index i => .index i
  | key k => .name k

theorem selector_injective {s t : Segment} (h : s.selector = t.selector) : s = t := by
  cases s with
  | index i =>
    cases t with
    | index j => rw [Int.ofNat.inj (Query.Selector.index.inj h)]
    | key l => cases h
  | key k =>
    cases t with
    | index j => cases h
    | key l => rw [Query.Selector.name.inj h]

/-- The first character tells where a segment starts. -/
theorem exists_chars (s : Segment) : ∃ c cs, s.chars = c :: cs ∧ (c = '.' ∨ c = '[') := by
  cases s with
  | index i => exact ⟨'[', _, rfl, .inr rfl⟩
  | key k =>
    rw [chars]
    split
    · exact ⟨'.', _, rfl, .inl rfl⟩
    · exact ⟨'[', _, rfl, .inr rfl⟩

end Segment

theorem escapeName_eq (cs : List Char) : escapeName cs = escape '\'' cs := by
  induction cs with
  | nil => rfl
  | cons c cs ih => rw [escapeName, escape, ih]

namespace Query.Reader

variable {rest : List Char}

theorem reads_step_index {i : Nat} (hi : i < 2 ^ 63) (rest : List Char) :
    Reads (step ((Segment.index i).chars ++ rest)) (.child [.index i]) rest := by
  have htext : Nat.toDigits 10 i = wholeText i := (wholeText_of_not_neg (Int.not_lt.mpr (Int.natCast_nonneg i))).symm
  obtain ⟨c, cs, heq, hc⟩ := exists_wholeText i
  have hinteger : Reads (integer (wholeText i ++ ']' :: rest)) i (']' :: rest) := by
    refine reads_integer ?_ ?_ (Json.Grammar.stops_cons (by decide))
    · exact Int.le_trans (by decide) (Int.natCast_nonneg i)
    · exact_mod_cast hi
  have hskip : skipBlanks (wholeText i ++ ']' :: rest) = wholeText i ++ ']' :: rest := by
    rw [heq]
    exact skipBlanks_cons (isBlank_of_startsNumber hc) _
  have hselector : Reads (selector (skipBlanks (wholeText i ++ ']' :: rest))) (.index i) (']' :: rest) := by
    rw [hskip, heq]
    rw [heq] at hinteger
    exact reads_selector_index hc hinteger
  have hbracket : Reads (bracket (wholeText i ++ ']' :: rest)) [.index i] rest := by
    refine reads_bracket_selectors (c := c) (l := cs ++ ']' :: rest) (by rw [hskip, heq]; rfl) ?_
      (reads_selectors_last hselector (skipBlanks_cons (by decide) rest))
    rintro rfl
    exact absurd hc (by decide)
  have hchars : (Segment.index i).chars ++ rest = '[' :: (wholeText i ++ ']' :: rest) := by
    rw [Segment.chars, htext, List.cons_append, List.append_assoc, List.singleton_append]
  rw [hchars]
  exact reads_step_bracket hbracket

theorem reads_step_quotedKey (k : String) (rest : List Char) :
    Reads (step ('[' :: (quotedText '\'' k ++ ']' :: rest))) (.child [.name k]) rest := by
  have hquote : isQuote '\'' = true := by decide
  have hskip : skipBlanks (quotedText '\'' k ++ ']' :: rest) = quotedText '\'' k ++ ']' :: rest :=
    skipBlanks_cons (by decide) _
  have hselector : Reads (selector (skipBlanks (quotedText '\'' k ++ ']' :: rest))) (.name k) (']' :: rest) := by
    rw [hskip]
    exact reads_selector_name hquote (reads_quoted hquote k (']' :: rest))
  refine reads_step_bracket (reads_bracket_selectors hskip (by decide) ?_)
  exact reads_selectors_last hselector (skipBlanks_cons (by decide) rest)

theorem reads_step_plainKey {k : String} (hk : isPlainName k.toList = true)
    (hrest : Stops isMemberChar rest) : Reads (step ('.' :: (k.toList ++ rest))) (.child [.name k]) rest := by
  cases hname : k.toList with
  | nil =>
    rw [hname] at hk
    cases hk
  | cons c cs =>
    rw [hname, isPlainName, Bool.and_eq_true, List.all_eq_true] at hk
    have hdot : c ≠ '.' := by
      rintro rfl
      exact absurd hk.1 (by decide)
    have hstar : c ≠ '*' := by
      rintro rfl
      exact absurd hk.1 (by decide)
    have hmember := reads_member hstar (isMemberChar_of_isNameRest (isNameRest_of_isNameStart hk.1))
      (fun d hd => isMemberChar_of_isNameRest (hk.2 d hd)) hrest
    rw [← hname, String.ofList_toList, hname] at hmember
    exact reads_step_member (by simpa using hdot) hmember

/-- **A segment of a canonical text is read as a step to the child.** -/
theorem reads_step_segment {s : Segment} (hs : ∀ i, s = .index i → i < 2 ^ 63) (hrest : Stops isMemberChar rest) :
    Reads (step (s.chars ++ rest)) (.child [s.selector]) rest := by
  cases s with
  | index i => exact reads_step_index (hs i rfl) rest
  | key k =>
    rw [Segment.chars]
    by_cases hk : isPlainName k.toList = true
    · rw [if_pos hk]
      exact reads_step_plainKey hk hrest
    · have hchars : '[' :: '\'' :: (escapeName k.toList ++ ['\'', ']']) ++ rest
          = '[' :: (quotedText '\'' k ++ ']' :: rest) := by
        simp [quotedText, escapeName_eq]
      rw [if_neg hk, hchars]
      exact reads_step_quotedKey k rest

end Query.Reader

namespace Path

def query (p : Path) : Query :=
  ⟨p.text, p.map fun s => .child [s.selector]⟩

theorem stops_flatMap_chars (p : Path) : Stops isMemberChar (p.flatMap Segment.chars) := by
  cases p with
  | nil => exact Json.Grammar.stops_nil _
  | cons s p =>
    obtain ⟨c, cs, heq, hc⟩ := s.exists_chars
    rw [List.flatMap_cons, heq]
    refine Json.Grammar.stops_cons ?_
    rcases hc with rfl | rfl <;> decide

theorem allSteps_chars {p : Path} (hp : ∀ i, Segment.index i ∈ p → i < 2 ^ 63) :
    allSteps (p.flatMap Segment.chars) = .ok (p.map fun s => .child [s.selector]) := by
  induction p with
  | nil => exact allSteps_of_blank rfl
  | cons s p ih =>
    have hfirst : ∀ i, s = .index i → i < 2 ^ 63 := fun i hi => hp i (hi ▸ List.mem_cons_self ..)
    have hrest := ih fun i hi => hp i (List.mem_cons_of_mem s hi)
    have hstep := reads_step_segment hfirst (stops_flatMap_chars p)
    obtain ⟨c, cs, heq, hc⟩ := s.exists_chars
    rw [heq, List.cons_append] at hstep
    rw [List.flatMap_cons, heq, List.cons_append, List.map_cons]
    refine allSteps_cons (skipBlanks_cons ?_ _) hstep hrest
    rcases hc with rfl | rfl <;> decide

/-- **A canonical text is read as the query with one child step for each segment.** -/
theorem read_text {p : Path} (hp : ∀ i, Segment.index i ∈ p → i < 2 ^ 63) : Query.read p.text = .ok p.query := by
  have hchars : readChars p.text.toList = .ok (p.map fun s => .child [s.selector]) := by
    rw [text, String.toList_ofList]
    exact readChars_root (skipBlanks_cons (by decide) _) (allSteps_chars hp)
  rw [Query.read, hchars]
  rfl

end Path

/-! ### Running a canonical text -/

/-- From no match, steps come to none. -/
theorem Query.foldl_apply_nil (root : Node) (steps : List Query.Step) : steps.foldl (Step.apply root) [] = [] := by
  induction steps with
  | nil => rfl
  | cons step steps ih =>
    have hnone : step.apply root [] = [] := by cases step <;> rfl
    rw [List.foldl_cons, hnone, ih]

/-- The selector picks what the segment leads to. -/
theorem Segment.pick_selector (s : Segment) (n : Node) :
    s.selector.pick n = ((n.child? s).map fun c => (s, c)).toList := by
  cases s with
  | key k => rfl
  | index i =>
    rw [selector, Query.pick_index]
    obtain ⟨v, o⟩ := n
    cases v with
    | array items =>
      rw [Query.arrayPosition?, Query.position?, if_neg (Int.not_lt.mpr (Int.natCast_nonneg i)), Int.natAbs_natCast]
      by_cases hi : i < items.length
      · rw [if_pos hi]
        rfl
      · have hnone : items[i]? = none := List.getElem?_eq_none (Nat.le_of_not_lt hi)
        rw [if_neg hi, Node.child?, Value.child?, Value.element?, hnone]
        rfl
    | _ => rfl

namespace Path

/-- Child steps for the segments of a path come to what the path leads to. -/
theorem foldl_apply (root : Node) (p q : Path) (n : Node) :
    (q.map fun s => Query.Step.child [s.selector]).foldl (Query.Step.apply root) [⟨p, n⟩]
      = ((n.at? q).map fun m => ⟨p ++ q, m⟩).toList := by
  induction q generalizing p n with
  | nil =>
    rw [List.append_nil]
    rfl
  | cons s q ih =>
    have hstep : Query.Step.apply root [⟨p, n⟩] (.child [s.selector])
        = ((n.child? s).map fun c => (⟨p.child s, c⟩ : Query.Match)).toList := by
      rw [Query.Step.apply, List.flatMap_singleton, Query.select, List.flatMap_singleton, s.pick_selector]
      cases n.child? s <;> rfl
    rw [List.map_cons, List.foldl_cons, hstep, Node.at?]
    cases n.child? s with
    | none =>
      exact Query.foldl_apply_nil root _
    | some c =>
      rw [Option.map_some, Option.toList_some, ih, Path.child, List.append_assoc, List.singleton_append]
      rfl

/-- **The query comes to what the path leads to, and to nothing else.** -/
theorem run_query (p : Path) (root : Node) : p.query.run root = ((root.at? p).map fun n => ⟨p, n⟩).toList :=
  foldl_apply root [] p root

theorem query_injective {p p' : Path} (h : p'.query.steps = p.query.steps) : p' = p := by
  have hsteps : Function.Injective fun s : Segment => Query.Step.child [s.selector] := by
    intro s t hst
    exact Segment.selector_injective (List.cons.inj (Query.Step.child.inj hst)).1
  exact List.map_injective_iff.mpr hsteps h

/-- **A canonical text is a query for what its path leads to**, and it is that of no other path. -/
theorem exists_query_text {p : Path} (hp : ∀ i, Segment.index i ∈ p → i < 2 ^ 63) :
    (∃ q, Query.read p.text = .ok q ∧ ∀ v : Value, q.run (.raw v) = match v.get? p with
      | some w => [⟨p, .raw w⟩]
      | none => []) ∧
    ∀ p' : Path, (∀ i, Segment.index i ∈ p' → i < 2 ^ 63) → p'.text = p.text → p' = p := by
  refine ⟨⟨p.query, read_text hp, fun v => ?_⟩, fun p' hp' htext => ?_⟩
  · rw [run_query, Node.at?_raw]
    cases v.get? p <;> rfl
  · have hread := read_text hp'
    rw [htext, read_text hp] at hread
    exact query_injective (congrArg Query.steps (Except.ok.inj hread)).symm

/-- Keys with a quote, a backslash, a line feed, a dot or nothing in them, and the largest index. -/
theorem exists_query_text_of_odd_keys :
    let p : Path := [.key "it's", .key "a\\n", .key "\n.[*]", .key "", .key "get", .index 9223372036854775807]
    (∀ i, Segment.index i ∈ p → i < 2 ^ 63) ∧
      p.text = "$['it\\'s']['a\\\\n']['\n.[*]'][''].get[9223372036854775807]" ∧
      (∃ q, Query.read p.text = .ok q ∧ ∀ v : Value, q.run (.raw v) = match v.get? p with
        | some w => [⟨p, .raw w⟩]
        | none => []) ∧
      ∀ p' : Path, (∀ i, Segment.index i ∈ p' → i < 2 ^ 63) → p'.text = p.text → p' = p := by
  intro p
  have hp : ∀ i, Segment.index i ∈ p → i < 2 ^ 63 := by
    intro i hi
    have hindex : i = 9223372036854775807 := by simpa [p] using hi
    rw [hindex]
    decide
  exact ⟨hp, by decide +kernel, exists_query_text hp⟩

end Path

end ApiLint
