import ApiLint.FilePath

/-!
# Canonical paths

A canonical path is written with names alone, a slash between each and the next, so that taking it apart
gives the names back (`components_ofNames`).  Taking out dots and double dots a second time then finds
none: seen from an absolute directory, a canonical path is its own canonical form (`canonical_canonical`),
and two canonical paths with the same components are the same path (`eq_of_components_eq`).

A relative directory is put in front of every relative path, a canonical one too.  Which canonical paths
stay as they are in any directory is said by `canonical_canonical_iff`.
-/

namespace ApiLint

/-- The pieces of a text do not have the separator in them. -/
theorem not_mem_of_mem_splitOn {sep : Char} {cs piece : List Char} (h : piece ∈ cs.splitOn sep) : sep ∉ piece := by
  induction cs generalizing piece with
  | nil =>
    rw [List.splitOn_nil, List.mem_singleton] at h
    rw [h]
    exact List.not_mem_nil
  | cons c cs ih =>
    rw [List.splitOn_cons_eq_if_modifyHead] at h
    by_cases hc : c = sep
    · rw [if_pos (beq_iff_eq.mpr hc)] at h
      rcases List.mem_cons.mp h with rfl | h
      · exact List.not_mem_nil
      · exact ih h
    · rw [if_neg (by simpa using hc)] at h
      cases hs : cs.splitOn sep with
      | nil => exact absurd hs (List.splitOn_ne_nil sep cs)
      | cons first pieces =>
        rw [hs] at h ih
        rcases List.mem_cons.mp h with rfl | h
        · rw [List.mem_cons, not_or]
          exact ⟨Ne.symm hc, ih List.mem_cons_self⟩
        · exact ih (List.mem_cons_of_mem first h)

namespace FilePath

/-! ### Names -/

/-- A part of a path that is a name wherever it stands. -/
structure IsName (part : List Char) : Prop where
  means : Component.ofPart? part = some (.name part)
  whole : '/' ∉ part

theorem isName_of_mem_components {p : FilePath} {n : List Char} (h : .name n ∈ p.components) :
    IsName n := by
  have hpart : ∃ part ∈ p.text.toList.splitOn '/', Component.ofPart? part = some (.name n) := by
    rw [components] at h
    cases hs : p.text.toList.splitOn '/' with
    | nil => exact absurd hs (List.splitOn_ne_nil _ _)
    | cons part parts =>
      rw [hs] at h
      rcases List.mem_append.mp h with h | h
      · -- in front of the parts there is no name
        split at h
        · cases List.mem_singleton.mp h
        · split at h
          · cases List.mem_singleton.mp h
          · exact absurd h List.not_mem_nil
      · exact List.mem_filterMap.mp h
  obtain ⟨part, hmem, hmeans⟩ := hpart
  obtain rfl : part = n := by
    rw [Component.ofPart?] at hmeans
    split at hmeans
    · cases hmeans
    · split at hmeans
      · cases hmeans
      · cases hmeans
        rfl
  exact ⟨hmeans, not_mem_of_mem_splitOn hmem⟩

theorem isName_of_mem_settle {names : List (List Char)} {cs : List Component}
    (hnames : ∀ n ∈ names, IsName n) (hcs : ∀ n, .name n ∈ cs → IsName n) :
    ∀ n ∈ settle names cs, IsName n := by
  fun_induction settle names cs with
  | case1 names => exact hnames
  | case2 names cs ih | case3 names cs ih =>
    exact ih hnames fun n hn => hcs n (List.mem_cons_of_mem _ hn)
  | case4 names cs ih =>
    exact ih (fun n hn => hnames n ((List.dropLast_sublist names).subset hn)) fun n hn =>
      hcs n (List.mem_cons_of_mem _ hn)
  | case5 names m cs ih =>
    refine ih (fun n hn => ?_) fun n hn => hcs n (List.mem_cons_of_mem _ hn)
    rcases List.mem_append.mp hn with hn | hn
    · exact hnames n hn
    · rw [List.mem_singleton.mp hn]
      exact hcs m List.mem_cons_self

theorem filterMap_ofPart? {names : List (List Char)} (h : ∀ n ∈ names, IsName n) :
    names.filterMap Component.ofPart? = names.map .name := by
  induction names with
  | nil => rfl
  | cons n ns ih =>
    rw [List.filterMap_cons_some (h n List.mem_cons_self).means,
      ih fun m hm => h m (List.mem_cons_of_mem n hm), List.map_cons]

theorem settle_names (names ns : List (List Char)) :
    settle names (ns.map Component.name) = names ++ ns := by
  induction ns generalizing names with
  | nil => exact (List.append_nil names).symm
  | cons n ns ih => rw [List.map_cons, settle, ih, List.append_assoc, List.singleton_append]

/-- What stands in front of the parts of a path leaves no name. -/
theorem settle_components (names : List (List Char)) (p : FilePath) :
    settle names p.components = settle names ((p.text.toList.splitOn '/').filterMap Component.ofPart?) := by
  rw [components]
  cases hs : p.text.toList.splitOn '/' with
  | nil => exact absurd hs (List.splitOn_ne_nil _ _)
  | cons part parts =>
    dsimp only
    split
    · rw [List.singleton_append, settle]
    · split
      · rw [List.singleton_append, settle]
      · rw [List.nil_append]

theorem isName_of_mem_settle_components {names : List (List Char)} (h : ∀ n ∈ names, IsName n) (p : FilePath) :
    ∀ n ∈ settle names p.components, IsName n :=
  isName_of_mem_settle h fun _ hn => isName_of_mem_components hn

/-! ### Paths made of names -/

theorem isAbsolute_ofNames {names : List (List Char)} (h : ∀ n ∈ names, IsName n) (absolute : Bool) :
    (ofNames absolute names).isAbsolute = absolute := by
  rw [isAbsolute, ofNames, String.toList_ofList]
  cases absolute with
  | true => rfl
  | false =>
    -- no name is empty, and none begins with a slash
    have hhead : (['/'].intercalate names).head? ≠ some '/' := by
      cases names with
      | nil => exact nofun
      | cons n ns =>
        have hn := h n List.mem_cons_self
        cases n with
        | nil => cases hn.means
        | cons c n =>
          have hc : c ≠ '/' := fun hc => hn.whole (hc ▸ List.mem_cons_self)
          cases ns with
          | nil => exact fun heq => hc (Option.some.inj heq)
          | cons next ns => exact fun heq => hc (Option.some.inj heq)
    exact decide_eq_false hhead

/-- **A path made of names is taken apart into these names.** -/
theorem components_ofNames {names : List (List Char)} (h : ∀ n ∈ names, IsName n) (absolute : Bool) :
    (ofNames absolute names).components = (if absolute then [.root] else []) ++ names.map .name := by
  have hmeans : ((['/'].intercalate names).splitOn '/').filterMap Component.ofPart? = names.map .name := by
    cases names with
    | nil => rfl
    | cons n ns =>
      rw [List.splitOn_intercalate '/' (fun m hm => (h m hm).whole) (List.cons_ne_nil n ns)]
      exact filterMap_ofPart? h
  rw [components, isAbsolute_ofNames h, ofNames, String.toList_ofList]
  cases absolute with
  | true =>
    simp only [if_true, List.singleton_append]
    rw [List.splitOn_cons_eq_if_modifyHead, if_pos (beq_self_eq_true _)]
    dsimp only
    rw [List.filterMap_cons_none (by decide), hmeans]
  | false =>
    simp only [Bool.false_eq_true, if_false, List.nil_append]
    rw [← hmeans]
    cases hs : (['/'].intercalate names).splitOn '/' with
    | nil => exact absurd hs (List.splitOn_ne_nil _ _)
    | cons part parts =>
      have hdot : part ≠ ['.'] := by
        rintro rfl
        cases names with
        | nil => cases hs
        | cons n ns =>
          rw [List.splitOn_intercalate '/' (fun m hm => (h m hm).whole) (List.cons_ne_nil n ns)] at hs
          obtain rfl := (List.cons.inj hs).1
          cases (h _ List.mem_cons_self).means
      dsimp only
      rw [if_neg hdot, List.nil_append]

/-- Different names make different paths. -/
theorem ofNames_inj {absolute : Bool} {names names' : List (List Char)} (h : ∀ n ∈ names, IsName n)
    (h' : ∀ n ∈ names', IsName n) : ofNames absolute names = ofNames absolute names' ↔ names = names' := by
  refine ⟨fun heq => ?_, fun heq => heq ▸ rfl⟩
  have hcomponents := congrArg components heq
  rw [components_ofNames h, components_ofNames h', List.append_cancel_left_eq] at hcomponents
  exact (List.map_inj_right fun _ _ => Component.name.inj).mp hcomponents

theorem normal_eq_ofNames {p : FilePath} (h : p.isAbsolute = true) :
    p.normal = ofNames true (settle [] p.components) := by
  rw [normal, h]

theorem isName_of_mem_settle_nil (p : FilePath) : ∀ n ∈ settle [] p.components, IsName n :=
  isName_of_mem_settle_components (fun _ hn => absurd hn List.not_mem_nil) p

theorem isAbsolute_normal (p : FilePath) : p.normal.isAbsolute = p.isAbsolute :=
  isAbsolute_ofNames (isName_of_mem_settle_nil p) _

/-- The names of a path without dots and double dots are those that are left. -/
theorem settle_normal (names : List (List Char)) (p : FilePath) :
    settle names p.normal.components = names ++ settle [] p.components := by
  rw [normal, components_ofNames (isName_of_mem_settle_nil p)]
  split
  · rw [List.singleton_append, settle, settle_names]
  · rw [List.nil_append, settle_names]

/-- A path without dots and double dots stays as it is when they are taken out. -/
theorem normal_normal (p : FilePath) : p.normal.normal = p.normal := by
  rw [normal, settle_normal, isAbsolute_normal, List.nil_append]
  rfl

/-! ### Paths seen from a directory -/

theorem settle_append (names : List (List Char)) (cs ds : List Component) :
    settle names (cs ++ ds) = settle (settle names cs) ds := by
  fun_induction settle names cs with
  | case1 => rfl
  | case2 names cs ih | case3 names cs ih | case4 names cs ih | case5 names n cs ih =>
    rw [List.cons_append, settle, ih]

theorem isAbsolute_join (p q : FilePath) : (p.join q).isAbsolute = (p.isAbsolute || q.isAbsolute) := by
  rw [join]
  by_cases hq : q.isAbsolute = true
  · rw [if_pos hq, hq, Bool.or_true]
  · rw [if_neg hq, Bool.eq_false_iff.mpr hq, Bool.or_false]
    by_cases hp : p.text = ""
    · rw [if_pos (by rw [hp]; rfl), hp, isAbsolute, isAbsolute, hp]
      exact Bool.eq_false_iff.mpr hq
    · have hhead : ∀ cs, (p.text.toList ++ cs).head? = p.text.toList.head? := by
        intro cs
        cases htext : p.text.toList with
        | nil => exact absurd (String.toList_eq_nil_iff.mp htext) hp
        | cons c cs => rfl
      split
      · rw [isAbsolute, isAbsolute, String.toList_append, hhead]
      · rw [isAbsolute, isAbsolute, String.toList_append, String.toList_append, List.append_assoc, hhead]

/-- From a directory, the double dots of a relative path take back the names of the directory. -/
theorem settle_join {p q : FilePath} (hq : q.isAbsolute = false) :
    settle [] (p.join q).components = settle (settle [] p.components) q.components := by
  rw [join, if_neg (by rw [hq]; exact Bool.false_ne_true), settle_components, settle_components [] p,
    settle_components _ q]
  split
  · next hdirectory =>
    rw [String.toList_append]
    by_cases hp : p.text.toList = []
    · rw [hp]
      rfl
    · rw [String.isEmpty_eq_false_iff.mpr fun h => hp (String.toList_eq_nil_iff.mpr h), Bool.false_or,
        decide_eq_true_eq, List.getLast?_eq_some_iff] at hdirectory
      obtain ⟨cs, hcs⟩ := hdirectory
      rw [hcs, List.append_assoc]
      show settle [] (((cs ++ '/' :: q.text.toList).splitOn '/').filterMap _) = _
      rw [List.splitOn_append_cons_self, List.splitOn_append_cons_self, List.filterMap_append, List.filterMap_append, settle_append]
      show _ = settle (settle [] (_ ++ [])) _
      rw [List.append_nil]
  · rw [String.toList_append, String.toList_append, List.append_assoc]
    show settle [] (((p.text.toList ++ '/' :: q.text.toList).splitOn '/').filterMap _) = _
    rw [List.splitOn_append_cons_self, List.filterMap_append, settle_append]

/-- What a path is resolved to before the dots are taken out. -/
theorem exists_canonical_eq_normal (base p : FilePath) :
    ∃ q : FilePath, q.isAbsolute = (base.isAbsolute || p.isAbsolute) ∧ canonical base p = q.normal := by
  by_cases hp : p.isAbsolute = true
  · exact ⟨p, by rw [hp, Bool.or_true], by rw [canonical, if_pos hp]⟩
  · exact ⟨base.join p, isAbsolute_join base p, by rw [canonical, if_neg hp]⟩

theorem isAbsolute_canonical_eq (base p : FilePath) :
    (canonical base p).isAbsolute = (base.isAbsolute || p.isAbsolute) := by
  obtain ⟨q, hq, heq⟩ := exists_canonical_eq_normal base p
  rw [heq, isAbsolute_normal, hq]

theorem isAbsolute_canonical {base : FilePath} (hbase : base.isAbsolute = true) (p : FilePath) :
    (canonical base p).isAbsolute = true := by
  rw [isAbsolute_canonical_eq, hbase, Bool.true_or]

/-- **A canonical path has no dots and no double dots.** -/
theorem eq_of_mem_components_canonical {base p : FilePath} {c : Component} (h : c ∈ (canonical base p).components) :
    c = .root ∨ ∃ n, c = .name n := by
  obtain ⟨q, -, heq⟩ := exists_canonical_eq_normal base p
  rw [heq, normal, components_ofNames (isName_of_mem_settle_nil q), List.mem_append] at h
  rcases h with h | h
  · split at h
    · exact .inl (List.mem_singleton.mp h)
    · exact absurd h List.not_mem_nil
  · obtain ⟨n, -, rfl⟩ := List.mem_map.mp h
    exact .inr ⟨n, rfl⟩

/-- The path is seen from the root, by itself or from the base directory, or the base directory leaves no name. -/
def Anchored (base p : FilePath) : Prop :=
  base.isAbsolute = true ∨ p.isAbsolute = true ∨ base.normal = ⟨""⟩

theorem canonical_of_isAbsolute (base : FilePath) {p : FilePath} (h : p.isAbsolute = true) :
    canonical base p = p.normal := by
  rw [canonical, if_pos h]

theorem canonical_of_relative (base : FilePath) {p : FilePath} (h : p.isAbsolute = false) :
    canonical base p = ofNames base.isAbsolute (settle (settle [] base.components) p.components) := by
  rw [canonical, if_neg (by rw [h]; exact Bool.false_ne_true), normal, settle_join h, isAbsolute_join, h,
    Bool.or_false]

/-- **A canonical path is its own canonical form if and only if it is anchored.**  A relative directory is put in front
of a relative path at every look. -/
theorem canonical_canonical_iff (base p : FilePath) :
    canonical base (canonical base p) = canonical base p ↔ Anchored base p := by
  obtain ⟨q, hq, heq⟩ := exists_canonical_eq_normal base p
  have hcanonical := isAbsolute_canonical_eq base p
  cases habsolute : base.isAbsolute || p.isAbsolute with
  | true =>
    rw [habsolute] at hcanonical
    refine iff_of_true ?_ ((Bool.or_eq_true_iff.mp habsolute).imp_right .inl)
    rw [canonical_of_isAbsolute base hcanonical, heq, normal_normal]
  | false =>
    obtain ⟨hbase, hp⟩ := Bool.or_eq_false_iff.mp habsolute
    rw [habsolute] at hq hcanonical
    have hnames := isName_of_mem_settle_nil
    have hanchored : Anchored base p ↔ base.normal = ⟨""⟩ := by
      rw [Anchored, hbase, hp]
      exact ⟨fun h => (h.resolve_left Bool.false_ne_true).resolve_left Bool.false_ne_true, fun h => .inr (.inr h)⟩
    have hempty : base.normal = ⟨""⟩ ↔ settle [] base.components = [] := by
      rw [normal, hbase]
      exact ofNames_inj (hnames base) fun _ hn => absurd hn List.not_mem_nil
    have hagain : canonical base (canonical base p) = canonical base p ↔
        settle [] base.components ++ settle [] q.components = settle [] q.components := by
      rw [canonical_of_relative base hcanonical, heq, settle_normal, normal, hq, hbase]
      refine ofNames_inj (fun n hn => ?_) (hnames q)
      exact (List.mem_append.mp hn).elim (hnames base n) (hnames q n)
    rw [hagain, hanchored, hempty]
    exact List.append_left_eq_self

/-- **Seen from an absolute directory, a canonical path is its own canonical form.** -/
theorem canonical_canonical {base : FilePath} (hbase : base.isAbsolute = true) (p : FilePath) :
    canonical base (canonical base p) = canonical base p :=
  (canonical_canonical_iff base p).mpr (.inl hbase)

/-- Different canonical paths lead to different places. -/
theorem eq_of_components_eq {base p q : FilePath} (hbase : base.isAbsolute = true)
    (hp : canonical base p = p) (hq : canonical base q = q) (h : p.components = q.components) : p = q := by
  have hnormal : ∀ {r : FilePath}, canonical base r = r → r = ofNames true (settle [] r.components) := by
    intro r hr
    have habsolute : r.isAbsolute = true := hr ▸ isAbsolute_canonical hbase r
    rw [canonical, if_pos habsolute, normal_eq_ofNames habsolute] at hr
    exact hr.symm
  rw [hnormal hp, hnormal hq, h]

end FilePath

end ApiLint
