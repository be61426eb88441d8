import GoSplice.Proofs.ClimbingPaths

/-!
# Trailing directories

A directory ends with another one as a text: its last names are those of the other, but for the first of
them, of which only the end need be the same.  What is left of that name is taken for a directory of its
own when the trailing ones are replaced:

    hasSuffix some/where here, and resolveTo some/where here there = some/w/there

    join (f :: gs) <:+ join ss ↔ ∃ us s, ss = us ++ (s ++ f) :: gs                      (suffix_join_iff)
    parts d = us ++ (s ++ f) :: gs → parts e = f :: gs → resolveTo d e t = ok r, where
      r is spelled in the segments of collapse (us ++ [s]) ++ parts t,
      and resolveTo r t e = ok (normalize d) ↔ s = []                                   (resolveTo_endsIn)

Where nothing is left of a name the last names are replaced by others, and can be put back again.
-/

namespace GoSplice.Path

/-! ## Texts and their segments -/

section Segments

variable {f s : List Char} {us gs ss ts : List (List Char)}

/-- A path cut inside of a segment. -/
theorem join_cut (us : List (List Char)) (s f : List Char) (gs : List (List Char)) :
    join (us ++ (s ++ f) :: gs) = join (us ++ [s]) ++ join (f :: gs) := by
  induction us with
  | nil =>
    cases gs with
    | nil => rfl
    | cons g gs =>
      show (s ++ f) ++ '/' :: join (g :: gs) = s ++ (f ++ '/' :: join (g :: gs))
      rw [List.append_assoc]
  | cons u us ih =>
    rw [List.cons_append, List.cons_append, join_cons u (by simp), join_cons u (by simp), ih, List.append_assoc]
    rfl

/-- The text of a path ends with that of another if its last segments are those of the other, where the first
of them may begin earlier. -/
theorem suffix_join_iff (hne : ss ≠ []) (hss : ∀ s ∈ ss, '/' ∉ s) (hgs : ∀ s ∈ f :: gs, '/' ∉ s) :
    join (f :: gs) <:+ join ss ↔ ∃ us s, ss = us ++ (s ++ f) :: gs := by
  constructor
  · rintro ⟨x, hx⟩
    obtain ⟨us, s, hcut⟩ := exists_segments_cut x
    have hsegments := hcut _ f gs (segments_join (List.cons_ne_nil f gs) hgs)
    rw [hx, segments_join hne hss] at hsegments
    exact ⟨us, s, hsegments⟩
  · rintro ⟨us, s, rfl⟩
    rw [join_cut]
    exact List.suffix_append _ _

/-- A path behind the front of a cut one: what is left of the cut segment is one of its own, if anything is. -/
theorem concatChars_join (hus : ∀ u ∈ us, u ≠ [] ∧ '/' ∉ u) (hs : '/' ∉ s) (hts : ∀ t ∈ ts, t ≠ [] ∧ '/' ∉ t)
    (hne : ts ≠ []) :
    concatChars (join (us ++ [s])) (join ts) = join (us ++ (if s = [] then [] else [s]) ++ ts) := by
  unfold concatChars
  rw [if_neg (head_join hts)]
  by_cases hnil : s = []
  · subst hnil
    rw [if_pos rfl, List.append_nil]
    by_cases hfront : us = []
    · subst hfront
      rfl
    · rw [join_append hfront, if_pos (.inr (List.getLast?_concat)), join_join hfront hne, List.append_assoc]
      rfl
  · have hnames : ∀ u ∈ us ++ [s], u ≠ [] ∧ '/' ∉ u :=
      List.forall_mem_append.mpr ⟨hus, List.forall_mem_singleton.mpr ⟨hnil, hs⟩⟩
    have hfront : us ++ [s] ≠ [] := by simp
    rw [if_neg hnil, if_neg (not_or.mpr ⟨join_ne_nil hfront hnames, getLast_join hnames⟩), join_join hfront hne]

end Segments

/-! ## Normal forms -/

section Normal

variable {kept ss us ts : List (List Char)} {s : List Char} {rooted : Bool}

/-- Whether kept segments are what pushing them again leaves, none of them blank. -/
structure IsSettled (kept : List (List Char)) : Prop where
  again : kept.reverse.foldl (push false) [] = kept
  notBlank : ∀ s ∈ kept, ¬ (s = [] ∨ s = ['.'])

theorem IsSettled.cons (h : IsSettled kept) (hs : push false kept s = s :: kept) (hblank : ¬ (s = [] ∨ s = ['.'])) :
    IsSettled (s :: kept) := by
  refine ⟨?_, List.forall_mem_cons.mpr ⟨hblank, h.notBlank⟩⟩
  rw [List.reverse_cons, List.foldl_append, h.again]
  exact hs

theorem IsSettled.tail (h : IsSettled (s :: kept)) (hs : s ≠ dotDot) : IsSettled kept := by
  obtain ⟨hblank, hkept⟩ := List.forall_mem_cons.mp h.notBlank
  refine ⟨?_, hkept⟩
  have hagain := h.again
  rw [List.reverse_cons, List.foldl_append, List.foldl_cons, List.foldl_nil] at hagain
  have hdown := ((segment_cases s).resolve_left hblank).resolve_left hs
  rw [push_stepDown hdown] at hagain
  exact (List.cons.inj hagain).2

theorem IsSettled.push (h : IsSettled kept) (s : List Char) : IsSettled (Path.push false kept s) := by
  rcases segment_cases s with hblank | rfl | hdown
  · rwa [push_blank hblank]
  · cases kept with
    | nil => exact h.cons rfl (by decide)
    | cons t kept =>
      by_cases ht : t = dotDot
      · subst ht
        exact h.cons rfl (by decide)
      · rw [push_dotDot_cons ht]
        exact h.tail ht
  · rw [push_stepDown hdown]
    refine h.cons (push_stepDown hdown) ?_
    obtain ⟨hnil, hdot, -⟩ := isStepDown_iff.mp hdown
    exact not_or.mpr ⟨hnil, hdot⟩

theorem IsSettled.foldl (h : IsSettled kept) (ss : List (List Char)) : IsSettled (ss.foldl (Path.push false) kept) := by
  induction ss generalizing kept with
  | nil => exact h
  | cons s ss ih => exact ih (h.push s)

theorem isSettled_reverse_collapse (ss : List (List Char)) : IsSettled (collapse false ss).reverse := by
  unfold collapse
  rw [List.reverse_reverse]
  exact IsSettled.foldl ⟨rfl, List.forall_mem_nil _⟩ ss

/-- The segments of a normal form collapse to themselves. -/
theorem collapse_collapse (ss : List (List Char)) : collapse false (collapse false ss) = collapse false ss := by
  have hagain := (isSettled_reverse_collapse ss).again
  rw [List.reverse_reverse] at hagain
  rw [collapse, hagain, List.reverse_reverse]

theorem notMem_push {c : Char} (hc : c ∉ dotDot) (hkept : ∀ t ∈ kept, c ∉ t) (hs : c ∉ s) : ∀ t ∈ push false kept s, c ∉ t := by
  rcases segment_cases s with hblank | rfl | hdown
  · rwa [push_blank hblank]
  · cases kept with
    | nil => exact List.forall_mem_singleton.mpr hc
    | cons u kept =>
      by_cases hu : u = dotDot
      · subst hu
        exact List.forall_mem_cons.mpr ⟨hc, hkept⟩
      · rw [push_dotDot_cons hu]
        exact (List.forall_mem_cons.mp hkept).2
  · rw [push_stepDown hdown]
    exact List.forall_mem_cons.mpr ⟨hs, hkept⟩

theorem notMem_foldl {c : Char} (hc : c ∉ dotDot) (hkept : ∀ t ∈ kept, c ∉ t) (hss : ∀ s ∈ ss, c ∉ s) :
    ∀ t ∈ ss.foldl (push false) kept, c ∉ t := by
  induction ss generalizing kept with
  | nil => exact hkept
  | cons s ss ih =>
    obtain ⟨hs, hss⟩ := List.forall_mem_cons.mp hss
    exact ih (notMem_push hc hkept hs) hss

/-- Collapsed segments are neither empty nor do they have slashes. -/
theorem names_collapse (hss : ∀ s ∈ ss, '/' ∉ s) : ∀ s ∈ collapse false ss, s ≠ [] ∧ '/' ∉ s := by
  intro s hs
  have hslash := notMem_foldl (by decide) (List.forall_mem_nil _) hss s (List.mem_reverse.mp hs)
  exact ⟨fun hnil => (isSettled_reverse_collapse ss).notBlank s (List.mem_reverse.mpr hs) (.inl hnil), hslash⟩

theorem collapse_concat_nil (ss : List (List Char)) : collapse false (ss ++ [[]]) = collapse false ss := by
  unfold collapse
  rw [List.foldl_append, List.foldl_cons, List.foldl_nil, push_blank (.inl rfl)]

/-- Names stay where they are behind other segments. -/
theorem collapse_append (ss : List (List Char)) (hts : ∀ t ∈ ts, isStepDown t) :
    collapse false (ss ++ ts) = collapse false ss ++ ts := by
  have hnames : dotDot ∉ ts := fun hmem => (isStepDown_iff.mp (hts dotDot hmem)).2.2 rfl
  unfold collapse
  rw [List.foldl_append, foldl_push_names hnames, List.filter_eq_self.mpr hts, List.reverse_append, List.reverse_reverse]

theorem collapse_names (hts : ∀ t ∈ ts, isStepDown t) : collapse false ts = ts := collapse_append [] hts

theorem normalizeChars_relative {p : List Char} (hp : p.head? ≠ some '/') :
    normalizeChars p = orDot (join (collapse false (segments p))) := by
  unfold normalizeChars
  rw [(rootSlashes_eq_zero_iff p).mpr hp]
  rfl

/-- The normal form of a path with some names. -/
theorem normalizeChars_join (hne : ss ≠ []) (hss : ∀ s ∈ ss, s ≠ [] ∧ '/' ∉ s) :
    normalizeChars (join ss) = orDot (join (collapse false ss)) := by
  rw [normalizeChars_relative (head_join hss), segments_join hne fun s hs => (hss s hs).2]

end Normal

/-! ## Descents -/

/-- The segments of the normal form of a path. -/
def parts (p : String) : List (List Char) := segments (normalize p).toList

/-- Whether a path leads from a directory to one below it: it begins with no slash, none of its segments leads up,
and it does not stay where it begins. -/
structure IsDescent (p : String) : Prop where
  relative : p.toList.head? ≠ some '/'
  noStepUp : dotDot ∉ segments p.toList
  moves : normalize p ≠ "."

instance (p : String) : Decidable (IsDescent p) :=
  decidable_of_iff (p.toList.head? ≠ some '/' ∧ dotDot ∉ segments p.toList ∧ normalize p ≠ ".")
    ⟨fun ⟨hrelative, hup, hmoves⟩ => ⟨hrelative, hup, hmoves⟩, fun h => ⟨h.relative, h.noStepUp, h.moves⟩⟩

theorem toList_normalize (p : String) : (normalize p).toList = normalizeChars p.toList := String.toList_ofList

theorem names_of_steps {ss : List (List Char)} (h : ∀ s ∈ ss, isStepDown s ∧ '/' ∉ s) : ∀ s ∈ ss, s ≠ [] ∧ '/' ∉ s :=
  fun s hs => ⟨(isStepDown_iff.mp (h s hs).1).1, (h s hs).2⟩

/-- A descent is normally spelled in names. -/
theorem IsDescent.normal {p : String} (h : IsDescent p) :
    parts p ≠ [] ∧ (∀ s ∈ parts p, isStepDown s ∧ '/' ∉ s) ∧ normalizeChars p.toList = join (parts p) := by
  have hcollapse : collapse false (segments p.toList) = (segments p.toList).filter isStepDown := by
    unfold collapse
    rw [foldl_push_names h.noStepUp, List.append_nil, List.reverse_reverse]
  have hchars := normalizeChars_relative h.relative
  rw [hcollapse] at hchars
  have hnames : ∀ s ∈ (segments p.toList).filter isStepDown, isStepDown s ∧ '/' ∉ s := fun s hs =>
    ⟨(List.mem_filter.mp hs).2, not_mem_segments (List.mem_filter.mp hs).1⟩
  generalize (segments p.toList).filter isStepDown = ss at hchars hnames
  have hne : ss ≠ [] := by
    rintro rfl
    apply h.moves
    unfold normalize
    rw [hchars]
    rfl
  have hjoin : join ss ≠ [] := join_ne_nil hne (names_of_steps hnames)
  rw [orDot, if_neg hjoin] at hchars
  have hparts : parts p = ss := by
    rw [parts, toList_normalize, hchars, segments_join hne fun s hs => (hnames s hs).2]
  rw [hparts]
  exact ⟨hne, hnames, hchars⟩

/-! ## Replaced directories -/

section Resolve

variable {directory suffix target : String} {us gs ts vs : List (List Char)} {s f : List Char}

/-- Behind the front of a cut path its steps up are taken, and then the target follows. -/
theorem normalizeChars_concat_cut (hus : ∀ u ∈ us, u ≠ [] ∧ '/' ∉ u) (hs : '/' ∉ s)
    (hts : ∀ t ∈ ts, isStepDown t ∧ '/' ∉ t) (hne : ts ≠ []) :
    normalizeChars (concatChars (join (us ++ [s])) (join ts)) = join (collapse false (us ++ [s]) ++ ts) := by
  have hrest : ∀ t ∈ (if s = [] then [] else [s]), t ≠ [] ∧ '/' ∉ t := by
    split
    · exact List.forall_mem_nil _
    · next hnil => exact List.forall_mem_singleton.mpr ⟨hnil, hs⟩
  have hnames : ∀ t ∈ us ++ (if s = [] then [] else [s]) ++ ts, t ≠ [] ∧ '/' ∉ t :=
    List.forall_mem_append.mpr ⟨List.forall_mem_append.mpr ⟨hus, hrest⟩, names_of_steps hts⟩
  have hcollapse : collapse false (us ++ (if s = [] then [] else [s])) = collapse false (us ++ [s]) := by
    split
    · next hnil => rw [hnil, collapse_concat_nil, List.append_nil]
    · rfl
  have hkept : ∀ t ∈ collapse false (us ++ [s]), t ≠ [] ∧ '/' ∉ t := by
    refine names_collapse (List.forall_mem_append.mpr ⟨fun u hu => (hus u hu).2, ?_⟩)
    exact List.forall_mem_singleton.mpr hs
  have hresult := join_ne_nil (List.append_ne_nil_of_right_ne_nil (collapse false (us ++ [s])) hne)
    (List.forall_mem_append.mpr ⟨hkept, names_of_steps hts⟩)
  rw [concatChars_join hus hs (names_of_steps hts) hne, normalizeChars_join (by simp [hne]) hnames,
    collapse_append _ fun t ht => (hts t ht).1, hcollapse, orDot, if_neg hresult]

/-- The trailing directories are replaced, where they may begin inside of a name. -/
theorem resolveTo_cut (hrelative : directory.toList.head? ≠ some '/')
    (hdirectory : normalizeChars directory.toList = join (us ++ (s ++ f) :: gs))
    (hsuffix : normalizeChars suffix.toList = join (f :: gs)) (htarget : normalizeChars target.toList = join ts)
    (hus : ∀ u ∈ us, u ≠ [] ∧ '/' ∉ u) (hs : '/' ∉ s) (hts : ∀ t ∈ ts, isStepDown t ∧ '/' ∉ t) (hne : ts ≠ []) :
    resolveTo directory suffix target = .ok (String.ofList (join (collapse false (us ++ [s]) ++ ts))) := by
  have hcut := hdirectory.trans (join_cut us s f gs)
  have hends : hasSuffix directory suffix = true := by
    unfold hasSuffix
    rw [hcut, hsuffix, List.isSuffixOf_iff_suffix]
    exact List.suffix_append _ _
  have hkept : ∀ t ∈ collapse false (us ++ [s]) ++ ts, t ≠ [] ∧ '/' ∉ t := by
    refine List.forall_mem_append.mpr ⟨names_collapse ?_, names_of_steps hts⟩
    exact List.forall_mem_append.mpr ⟨fun u hu => (hus u hu).2, List.forall_mem_singleton.mpr hs⟩
  unfold resolveTo
  rw [if_pos hends]
  dsimp only
  rw [if_neg hrelative, hcut, hsuffix, htarget, List.length_append, Nat.add_sub_cancel, List.take_left,
    normalizeChars_concat_cut hus hs hts hne, if_neg (head_join hkept)]

/-- Trailing directories that are whole names are replaced. -/
theorem resolveTo_whole (hrelative : directory.toList.head? ≠ some '/')
    (hdirectory : normalizeChars directory.toList = join (vs ++ gs)) (hsuffix : normalizeChars suffix.toList = join gs)
    (htarget : normalizeChars target.toList = join ts) (hvs : ∀ v ∈ vs, v ≠ [] ∧ '/' ∉ v)
    (hnormal : collapse false vs = vs) (hgs : gs ≠ []) (hts : ∀ t ∈ ts, isStepDown t ∧ '/' ∉ t) (hne : ts ≠ []) :
    resolveTo directory suffix target = .ok (String.ofList (join (vs ++ ts))) := by
  obtain ⟨f, gs, rfl⟩ := List.exists_cons_of_ne_nil hgs
  rw [resolveTo_cut hrelative hdirectory hsuffix htarget hvs List.not_mem_nil hts hne, collapse_concat_nil, hnormal]

/-- Names behind a path in normal form are one. -/
theorem normalizeChars_append (hvs : ∀ v ∈ vs, v ≠ [] ∧ '/' ∉ v) (hnormal : collapse false vs = vs)
    (hts : ∀ t ∈ ts, isStepDown t ∧ '/' ∉ t) (hne : ts ≠ []) :
    normalizeChars (join (vs ++ ts)) = join (vs ++ ts) := by
  have hnames : ∀ t ∈ vs ++ ts, t ≠ [] ∧ '/' ∉ t := List.forall_mem_append.mpr ⟨hvs, names_of_steps hts⟩
  have hlong := List.append_ne_nil_of_right_ne_nil vs hne
  rw [normalizeChars_join hlong hnames, collapse_append _ fun t ht => (hts t ht).1, hnormal, orDot,
    if_neg (join_ne_nil hlong hnames)]

/-- Whether segments end in others, where `s` is left of the name in which they begin. -/
def EndsIn (ss fs us : List (List Char)) (s : List Char) : Prop := ∃ f gs, fs = f :: gs ∧ ss = us ++ (s ++ f) :: gs

theorem endsIn_nil {ss fs : List (List Char)} (hne : fs ≠ []) : EndsIn ss fs us [] ↔ ss = us ++ fs := by
  constructor
  · rintro ⟨f, gs, rfl, hss⟩
    exact hss
  · intro hss
    obtain ⟨f, gs, rfl⟩ := List.exists_cons_of_ne_nil hne
    exact ⟨f, gs, rfl, hss⟩

theorem hasSuffix_iff (hdirectory : IsDescent directory) (hsuffix : IsDescent suffix) :
    hasSuffix directory suffix ↔ ∃ us s, EndsIn (parts directory) (parts suffix) us s := by
  obtain ⟨hne, hnames, hchars⟩ := hdirectory.normal
  obtain ⟨hne', hnames', hchars'⟩ := hsuffix.normal
  obtain ⟨f, gs, hparts⟩ := List.exists_cons_of_ne_nil hne'
  rw [hparts] at hchars' hnames'
  unfold hasSuffix
  rw [List.isSuffixOf_iff_suffix, hchars, hchars',
    suffix_join_iff hne (fun s hs => (hnames s hs).2) fun s hs => (hnames' s hs).2, hparts]
  constructor
  · rintro ⟨us, s, heq⟩
    exact ⟨us, s, f, gs, rfl, heq⟩
  · rintro ⟨us, s, f', gs', hcons, heq⟩
    cases hcons
    exact ⟨us, s, heq⟩

/-- What a replaced directory is, and whether replacing it back leads to the directory again. -/
theorem resolveTo_endsIn (hdirectory : IsDescent directory) (hsuffix : IsDescent suffix) (htarget : IsDescent target)
    (h : EndsIn (parts directory) (parts suffix) us s) :
    ∃ r, resolveTo directory suffix target = .ok r ∧
      r = String.ofList (join (collapse false (us ++ [s]) ++ parts target)) ∧
      (resolveTo r target suffix = .ok (normalize directory) ↔ s = []) := by
  obtain ⟨f, gs, hparts, hcut⟩ := h
  obtain ⟨-, hnames, hdirectoryChars⟩ := hdirectory.normal
  obtain ⟨hfs, hsuffixNames, hsuffixChars⟩ := hsuffix.normal
  obtain ⟨hne, htargetNames, htargetChars⟩ := htarget.normal
  rw [hcut] at hnames hdirectoryChars
  obtain ⟨hus, hsf, hgs⟩ := (List.forall_mem_append.mp hnames).imp_right List.forall_mem_cons.mp
  have hs : '/' ∉ s := fun hmem => hsf.2 (List.mem_append_left f hmem)
  have hkept : ∀ v ∈ collapse false (us ++ [s]), v ≠ [] ∧ '/' ∉ v := by
    refine names_collapse (List.forall_mem_append.mpr ⟨fun u hu => (hus u hu).2, ?_⟩)
    exact List.forall_mem_singleton.mpr hs
  have hagain := collapse_collapse (us ++ [s])
  have hwhole : s = [] → collapse false (us ++ [s]) = us := by
    rintro rfl
    rw [collapse_concat_nil, collapse_names fun u hu => (hus u hu).1]
  refine ⟨_, resolveTo_cut hdirectory.relative hdirectoryChars (hparts ▸ hsuffixChars) htargetChars
    (names_of_steps hus) hs htargetNames hne, rfl, ?_⟩
  generalize collapse false (us ++ [s]) = vs at hkept hagain hwhole
  have hrelative : (String.ofList (join (vs ++ parts target))).toList.head? ≠ some '/' := by
    rw [String.toList_ofList]
    exact head_join (List.forall_mem_append.mpr ⟨hkept, names_of_steps htargetNames⟩)
  have hresult : normalizeChars (String.ofList (join (vs ++ parts target))).toList = join (vs ++ parts target) := by
    rw [String.toList_ofList, normalizeChars_append hkept hagain htargetNames hne]
  rw [resolveTo_whole hrelative hresult htargetChars hsuffixChars hkept hagain hne hsuffixNames hfs, normalize,
    hdirectoryChars, Except.ok.injEq, String.ofList_inj, hparts]
  constructor
  · intro hjoin
    have hsegments := congrArg segments hjoin
    rw [hparts] at hsuffixNames
    have hback : ∀ v ∈ vs ++ f :: gs, '/' ∉ v :=
      List.forall_mem_append.mpr ⟨fun v hv => (hkept v hv).2, fun v hv => (hsuffixNames v hv).2⟩
    rw [segments_join (by simp) hback, segments_join (by simp) fun v hv => (hnames v hv).2] at hsegments
    have hlength := congrArg List.length hsegments
    simp only [List.length_append, List.length_cons, Nat.add_right_cancel_iff] at hlength
    obtain ⟨-, hlast⟩ := List.append_inj hsegments hlength
    obtain ⟨hname, -⟩ := List.cons.inj hlast
    exact List.append_left_eq_self.mp hname.symm
  · intro hnil
    rw [hwhole hnil, hnil, List.nil_append]

/-- For paths that lead down, a directory ends with a suffix as its last names do, of which the first may begin
earlier.  If it does not begin earlier, the names before it stay, those of the target follow, and replacing them back
gives the directory in normal form.  If it does, what is left of it is a segment before the target, and replacing back
does not give the directory.  A directory that does not end with the suffix is refused. -/
theorem resolveTo_descent (hdirectory : IsDescent directory) (hsuffix : IsDescent suffix) (htarget : IsDescent target) :
    (hasSuffix directory suffix ↔ ∃ us s, EndsIn (parts directory) (parts suffix) us s) ∧
    (∀ us, parts directory = us ++ parts suffix →
      ∃ r, resolveTo directory suffix target = .ok r ∧ r = String.ofList (join (us ++ parts target)) ∧
        parts r = us ++ parts target ∧ resolveTo r target suffix = .ok (normalize directory)) ∧
    (∀ us s, s ≠ [] → EndsIn (parts directory) (parts suffix) us s →
      ∃ r, resolveTo directory suffix target = .ok r ∧
        r = String.ofList (join (collapse false (us ++ [s]) ++ parts target)) ∧
        resolveTo r target suffix ≠ .ok (normalize directory)) ∧
    (resolveTo directory suffix target = .error ⟨directory, normalize suffix⟩ ↔ ¬ hasSuffix directory suffix) := by
  refine ⟨hasSuffix_iff hdirectory hsuffix, fun us heq => ?_, fun us s hs hends => ?_, ?_⟩
  · obtain ⟨hfs, -⟩ := hsuffix.normal
    obtain ⟨r, hr, hspelled, hback⟩ := resolveTo_endsIn hdirectory hsuffix htarget ((endsIn_nil hfs).mpr heq)
    obtain ⟨hne, htargetNames, -⟩ := htarget.normal
    have hnames := hdirectory.normal.2.1
    rw [heq] at hnames
    have hus := (List.forall_mem_append.mp hnames).1
    have hkept := collapse_names fun u hu => (hus u hu).1
    rw [collapse_concat_nil, hkept] at hspelled
    refine ⟨r, hr, hspelled, ?_, hback.mpr rfl⟩
    rw [parts, toList_normalize, hspelled, String.toList_ofList,
      normalizeChars_append (names_of_steps hus) hkept htargetNames hne, segments_join (by simp [hne])]
    exact List.forall_mem_append.mpr ⟨fun u hu => (hus u hu).2, fun t ht => (htargetNames t ht).2⟩
  · obtain ⟨r, hr, hspelled, hback⟩ := resolveTo_endsIn hdirectory hsuffix htarget hends
    exact ⟨r, hr, hspelled, fun h => hs (hback.mp h)⟩
  · unfold resolveTo
    split
    · next h => simp [h]
    · next h => simp [h]

/-- Two whole names that are replaced and found again, and half a name that is not. -/
theorem resolveTo_descent_where :
    (∃ r, resolveTo "some/./dir//here/" "dir/here" "./other" = .ok r ∧ r = "some/other" ∧
      parts r = ["some".toList, "other".toList] ∧ resolveTo r "./other" "dir/here" = .ok "some/dir/here") ∧
    (∃ r, resolveTo "some/where" "here" "there" = .ok r ∧ r = "some/w/there" ∧
      resolveTo r "there" "here" ≠ .ok "some/where") ∧
    resolveTo "some/dir/" "./here" "there" = .error ⟨"some/dir/", "here"⟩ := by
  obtain ⟨-, hwhole, -, -⟩ := @resolveTo_descent "some/./dir//here/" "dir/here" "./other" (by decide) (by decide) (by decide)
  obtain ⟨-, -, hcut, -⟩ := @resolveTo_descent "some/where" "here" "there" (by decide) (by decide) (by decide)
  obtain ⟨-, -, -, hrefused⟩ := @resolveTo_descent "some/dir/" "./here" "there" (by decide) (by decide) (by decide)
  refine ⟨hwhole ["some".toList] rfl, ?_, hrefused.mpr (by decide)⟩
  exact hcut ["some".toList] ['w'] (by decide) ⟨"here".toList, [], rfl, rfl⟩

end Resolve

end GoSplice.Path
