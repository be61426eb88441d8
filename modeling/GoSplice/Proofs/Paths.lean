import GoSplice.Path

/-!
# Layer paths

A layer path is the root, or plain names with slashes between them.  Spelling it
again changes nothing, and a plain name below it is its child.  A segment stays where it is, leads
back up or leads down, and what cleaning does is what each of these does (segment_cases):

    push kept s = kept, for a blank segment                                   (push_blank)
    push (t :: kept) dotDot = kept                                            (push_dotDot_cons)
    push kept s = s :: kept, for a name                                       (push_stepDown)
    clean p = ok c → ∃ ss, c = spell ss, all plain                            (clean_eq_ok)
    clean (spell ss) = ok (spell ss)                                          (clean_spell)
    clean p = ok (spell ss) → clean (concat p name) = ok (spell (ss ++ [name])) (clean_concat)
    parent (spell (ss ++ [name])) = spell ss                                  (parent_spell)
    baseName (spell (ss ++ [name])) = name                                    (baseName_spell)
-/

namespace GoSplice.Path

/-! ## Segments -/

theorem segments_ne_nil (p : List Char) : segments p ≠ [] := by
  induction p with
  | nil => simp [segments]
  | cons c r ih =>
    unfold segments
    split
    · simp
    · split <;> simp

theorem segments_slash (r : List Char) : segments ('/' :: r) = [] :: segments r := by
  rw [segments, if_pos rfl]

theorem segments_cons {c : Char} {r s : List Char} {ss : List (List Char)} (hc : c ≠ '/')
    (hs : segments r = s :: ss) : segments (c :: r) = (c :: s) :: ss := by
  rw [segments, if_neg hc, hs]

theorem segments_append (a b : List Char) : segments (a ++ '/' :: b) = segments a ++ segments b := by
  induction a with
  | nil => exact segments_slash b
  | cons c a ih =>
    rw [List.cons_append]
    by_cases hc : c = '/'
    · subst hc
      rw [segments_slash, segments_slash, ih]
      rfl
    · cases hs : segments a with
      | nil => exact absurd hs (segments_ne_nil a)
      | cons s ss =>
        rw [segments_cons hc hs, segments_cons hc (ih.trans (by rw [hs]; rfl))]
        rfl

theorem segments_of_not_mem {s : List Char} (h : '/' ∉ s) : segments s = [s] := by
  induction s with
  | nil => rfl
  | cons c s ih =>
    rw [List.mem_cons, not_or] at h
    exact segments_cons (Ne.symm h.1) (ih h.2)

/-- The last segment of a text goes on in the first one of the text behind it. -/
theorem exists_segments_cut (x : List Char) : ∃ us s, ∀ y f gs, segments y = f :: gs →
    segments (x ++ y) = us ++ (s ++ f) :: gs := by
  induction x with
  | nil => exact ⟨[], [], fun y f gs hy => hy⟩
  | cons c x ih =>
    obtain ⟨us, s, ih⟩ := ih
    by_cases hc : c = '/'
    · subst hc
      refine ⟨[] :: us, s, fun y f gs hy => ?_⟩
      rw [List.cons_append, segments_slash, ih y f gs hy]
      rfl
    · cases us with
      | nil => exact ⟨[], c :: s, fun y f gs hy => segments_cons hc (ih y f gs hy)⟩
      | cons u us => exact ⟨(c :: u) :: us, s, fun y f gs hy => segments_cons hc (ih y f gs hy)⟩

theorem not_mem_segments {p s : List Char} (h : s ∈ segments p) : '/' ∉ s := by
  induction p generalizing s with
  | nil =>
    rw [segments, List.mem_singleton] at h
    subst h
    exact List.not_mem_nil
  | cons c r ih =>
    unfold segments at h
    split at h
    · rcases List.mem_cons.mp h with rfl | h
      · exact List.not_mem_nil
      · exact ih h
    · next hc =>
      cases hs : segments r with
      | nil => exact absurd hs (segments_ne_nil r)
      | cons t ts =>
        rw [hs] at h ih
        rcases List.mem_cons.mp h with rfl | h
        · rw [List.mem_cons, not_or]
          exact ⟨Ne.symm hc, ih List.mem_cons_self⟩
        · exact ih (List.mem_cons_of_mem _ h)

theorem mem_of_mem_segments {p s : List Char} {c : Char} (h : s ∈ segments p) (hc : c ∈ s) :
    c ∈ p := by
  induction p generalizing s with
  | nil =>
    rw [segments, List.mem_singleton] at h
    subst h
    exact hc
  | cons d r ih =>
    unfold segments at h
    split at h
    · rcases List.mem_cons.mp h with rfl | h
      · cases hc
      · exact List.mem_cons_of_mem _ (ih h hc)
    · cases hs : segments r with
      | nil => exact absurd hs (segments_ne_nil r)
      | cons t ts =>
        rw [hs] at h ih
        rcases List.mem_cons.mp h with rfl | h
        · rcases List.mem_cons.mp hc with rfl | hc
          · exact List.mem_cons_self
          · exact List.mem_cons_of_mem _ (ih List.mem_cons_self hc)
        · exact List.mem_cons_of_mem _ (ih (List.mem_cons_of_mem _ h) hc)

/-! ## Plain names -/

/-- A name that is a segment of its own in a layer path. -/
structure IsPlain (s : List Char) : Prop where
  ne_nil : s ≠ []
  ne_dot : s ≠ ['.']
  ne_dotDot : s ≠ dotDot
  noSlash : '/' ∉ s
  noBackslash : '\\' ∉ s

instance (s : List Char) : Decidable (IsPlain s) :=
  decidable_of_iff (s ≠ [] ∧ s ≠ ['.'] ∧ s ≠ dotDot ∧ '/' ∉ s ∧ '\\' ∉ s)
    ⟨fun ⟨hnil, hdot, hdots, hslash, hback⟩ => ⟨hnil, hdot, hdots, hslash, hback⟩,
      fun h => ⟨h.ne_nil, h.ne_dot, h.ne_dotDot, h.noSlash, h.noBackslash⟩⟩

/-- The layer path of some names, each in the one before. -/
def spellChars (ss : List (List Char)) : List Char := orDot (join ss)

def spell (ss : List (List Char)) : String := String.ofList (spellChars ss)

theorem join_cons {ss : List (List Char)} (s : List Char) (hss : ss ≠ []) : join (s :: ss) = s ++ '/' :: join ss := by
  obtain ⟨t, ts, rfl⟩ := List.exists_cons_of_ne_nil hss
  rfl

/-- One path behind another. -/
theorem join_join {ss ts : List (List Char)} (hss : ss ≠ []) (hts : ts ≠ []) :
    join (ss ++ ts) = join ss ++ '/' :: join ts := by
  induction ss with
  | nil => exact absurd rfl hss
  | cons s ss ih =>
    by_cases hnil : ss = []
    · subst hnil
      exact join_cons s hts
    · rw [List.cons_append, join_cons s (by simp [hnil]), join_cons s hnil, ih hnil, List.append_assoc]
      rfl

theorem join_append {ss : List (List Char)} {s : List Char} (h : ss ≠ []) :
    join (ss ++ [s]) = join ss ++ '/' :: s := join_join h (List.cons_ne_nil s [])

/-- A path is its segments with slashes between them. -/
theorem join_segments (p : List Char) : join (segments p) = p := by
  induction p with
  | nil => rfl
  | cons c r ih =>
    by_cases hc : c = '/'
    · subst hc
      rw [segments_slash, join_cons [] (segments_ne_nil r), ih]
      rfl
    · obtain ⟨s, ss, hs⟩ := List.exists_cons_of_ne_nil (segments_ne_nil r)
      rw [hs] at ih
      rw [segments_cons hc hs, ← ih]
      cases ss <;> rfl

theorem segments_join {ss : List (List Char)} (hne : ss ≠ []) (h : ∀ s ∈ ss, '/' ∉ s) :
    segments (join ss) = ss := by
  fun_induction join ss with
  | case1 => exact absurd rfl hne
  | case2 s => exact segments_of_not_mem (h s List.mem_cons_self)
  | case3 s ss hss ih =>
    have hss : ss ≠ [] := by
      intro he
      subst he
      exact hss rfl
    rw [segments_append, segments_of_not_mem (h s List.mem_cons_self),
      ih hss fun t ht => h t (List.mem_cons_of_mem _ ht)]
    rfl

theorem join_ne_nil {ss : List (List Char)} (hne : ss ≠ []) (h : ∀ s ∈ ss, s ≠ [] ∧ '/' ∉ s) :
    join ss ≠ [] := by
  intro he
  have hs := segments_join hne fun s hs => (h s hs).2
  rw [he] at hs
  exact (h [] (by rw [← hs]; simp [segments])).1 rfl

theorem mem_join {ss : List (List Char)} {c : Char} (h : c ∈ join ss) :
    c = '/' ∨ ∃ s ∈ ss, c ∈ s := by
  fun_induction join ss with
  | case1 => cases h
  | case2 s => exact Or.inr ⟨s, List.mem_cons_self, h⟩
  | case3 s ss _ ih =>
    rw [List.mem_append, List.mem_cons] at h
    rcases h with h | h | h
    · exact Or.inr ⟨s, List.mem_cons_self, h⟩
    · exact Or.inl h
    · rcases ih h with h | ⟨t, ht, hc⟩
      · exact Or.inl h
      · exact Or.inr ⟨t, List.mem_cons_of_mem _ ht, hc⟩

theorem head_join {ss : List (List Char)} (h : ∀ s ∈ ss, s ≠ [] ∧ '/' ∉ s) :
    (join ss).head? ≠ some '/' := by
  fun_induction join ss with
  | case1 => simp
  | case2 s =>
    intro hs
    exact (h s List.mem_cons_self).2 (List.mem_of_head? hs)
  | case3 s ss _ _ =>
    obtain ⟨hne, hslash⟩ := h s List.mem_cons_self
    cases s with
    | nil => exact absurd rfl hne
    | cons c r =>
      rw [List.cons_append, List.head?_cons, Ne, Option.some.injEq]
      rintro rfl
      exact hslash List.mem_cons_self

theorem getLast_join {ss : List (List Char)} (h : ∀ s ∈ ss, s ≠ [] ∧ '/' ∉ s) :
    (join ss).getLast? ≠ some '/' := by
  fun_induction join ss with
  | case1 => simp
  | case2 s =>
    intro hs
    exact (h s List.mem_cons_self).2 (List.mem_of_getLast? hs)
  | case3 s ss hss ih =>
    have hss : ss ≠ [] := by
      intro he
      subst he
      exact hss rfl
    have h' := fun t ht => h t (List.mem_cons_of_mem s ht)
    have hne := join_ne_nil hss h'
    cases hj : join ss with
    | nil => exact absurd hj hne
    | cons c r =>
      have ih := ih h'
      rw [hj] at ih
      rw [List.getLast?_append, List.getLast?_cons_cons]
      cases hl : (c :: r).getLast? with
      | none => exact absurd (List.getLast?_eq_none_iff.mp hl) (List.cons_ne_nil c r)
      | some d =>
        rw [hl] at ih
        exact ih

/-! ## Cleaning -/

/-! ### Single segments -/

/-- Whether a segment is a name, which leads one directory down. -/
def isStepDown (s : List Char) : Bool := s ≠ [] && s ≠ ['.'] && s ≠ dotDot

theorem isStepDown_iff {s : List Char} : isStepDown s ↔ s ≠ [] ∧ s ≠ ['.'] ∧ s ≠ dotDot := by
  simp [isStepDown, and_assoc]

/-- A segment leads nowhere, up or down. -/
theorem segment_cases (s : List Char) : (s = [] ∨ s = ['.']) ∨ s = dotDot ∨ isStepDown s := by
  rw [isStepDown_iff, or_assoc]
  by_cases hnil : s = []
  · exact .inl hnil
  by_cases hdot : s = ['.']
  · exact .inr (.inl hdot)
  by_cases hup : s = dotDot
  · exact .inr (.inr (.inl hup))
  · exact .inr (.inr (.inr ⟨hnil, hdot, hup⟩))

theorem IsPlain.isStepDown {s : List Char} (h : IsPlain s) : Path.isStepDown s :=
  isStepDown_iff.mpr ⟨h.ne_nil, h.ne_dot, h.ne_dotDot⟩

theorem isPlain_of_isStepDown {s : List Char} (h : isStepDown s) (hs : '/' ∉ s ∧ '\\' ∉ s) : IsPlain s := by
  obtain ⟨hnil, hdot, hdots⟩ := isStepDown_iff.mp h
  exact ⟨hnil, hdot, hdots, hs.1, hs.2⟩

section Collapse

variable {rooted : Bool} {kept ss : List (List Char)} {s : List Char}

theorem push_blank (h : s = [] ∨ s = ['.']) : push rooted kept s = kept := by
  unfold push
  rw [if_pos h]

theorem push_dotDot_cons {t : List Char} (ht : t ≠ dotDot) : push rooted (t :: kept) dotDot = kept := by
  unfold push
  rw [if_neg (by decide), if_pos rfl]
  exact if_neg ht

theorem push_stepDown (h : isStepDown s) : push rooted kept s = s :: kept := by
  obtain ⟨hnil, hdot, hdots⟩ := isStepDown_iff.mp h
  unfold push
  rw [if_neg (not_or.mpr ⟨hnil, hdot⟩), if_neg hdots]

/-- Without steps up, pushing keeps the names. -/
theorem foldl_push_names (h : dotDot ∉ ss) : ss.foldl (push rooted) kept = (ss.filter isStepDown).reverse ++ kept := by
  induction ss generalizing kept with
  | nil => rfl
  | cons s ss ih =>
    rw [List.mem_cons, not_or] at h
    rw [List.foldl_cons, ih h.2]
    rcases segment_cases s with hblank | rfl | hdown
    · have hdown : ¬ isStepDown s := by rcases hblank with rfl | rfl <;> decide
      rw [push_blank hblank, List.filter_cons_of_neg hdown]
    · exact absurd rfl h.1
    · rw [push_stepDown hdown, List.filter_cons_of_pos hdown, List.reverse_cons, List.append_assoc]
      rfl

theorem foldl_push_plain (h : ∀ s ∈ ss, IsPlain s) : ss.foldl (push rooted) kept = ss.reverse ++ kept := by
  rw [foldl_push_names fun hmem => (h dotDot hmem).ne_dotDot rfl, List.filter_eq_self.mpr fun s hs => (h s hs).isStepDown]

/-- The kept segments are plain names over segments that climb. -/
def IsStack (kept : List (List Char)) : Prop :=
  ∃ plain n, kept = plain ++ List.replicate n dotDot ∧ ∀ s ∈ plain, IsPlain s

theorem isStack_push (h : IsStack kept) (hs : '/' ∉ s ∧ '\\' ∉ s) : IsStack (push rooted kept s) := by
  obtain ⟨plain, n, rfl, hplain⟩ := h
  rcases segment_cases s with hblank | rfl | hdown
  · rw [push_blank hblank]
    exact ⟨plain, n, rfl, hplain⟩
  · cases plain with
    | nil =>
      cases n with
      | zero =>
        cases rooted with
        | false => exact ⟨[], 1, rfl, hplain⟩
        | true => exact ⟨[], 0, rfl, hplain⟩
      | succ n => exact ⟨[], n + 2, rfl, hplain⟩
    | cons t ts =>
      obtain ⟨ht, hts⟩ := List.forall_mem_cons.mp hplain
      rw [List.cons_append, push_dotDot_cons ht.ne_dotDot]
      exact ⟨ts, n, rfl, hts⟩
  · rw [push_stepDown hdown]
    exact ⟨s :: plain, n, rfl, List.forall_mem_cons.mpr ⟨isPlain_of_isStepDown hdown hs, hplain⟩⟩

theorem isStack_foldl (h : IsStack kept) (hs : ∀ s ∈ ss, '/' ∉ s ∧ '\\' ∉ s) : IsStack (ss.foldl (push rooted) kept) := by
  induction ss generalizing kept with
  | nil => exact h
  | cons s ss ih =>
    exact ih (isStack_push h (hs s List.mem_cons_self)) fun t ht => hs t (List.mem_cons_of_mem _ ht)

end Collapse

theorem not_mem_forwardSlashes (p : List Char) : '\\' ∉ forwardSlashes p := by
  intro h
  obtain ⟨c, -, hc⟩ := List.mem_map.mp h
  split at hc
  · cases hc
  · next hne => exact hne hc

theorem forwardSlashes_append (p q : List Char) :
    forwardSlashes (p ++ q) = forwardSlashes p ++ forwardSlashes q := List.map_append

theorem forwardSlashes_of_not_mem {p : List Char} (h : '\\' ∉ p) : forwardSlashes p = p := by
  unfold forwardSlashes
  conv => rhs; rw [← List.map_id p]
  refine List.map_congr_left fun c hc => ?_
  rw [if_neg]
  · rfl
  · rintro rfl
    exact h hc

/-- The segments of a cleaned path, the climbing ones included. -/
def cleanSegments (p : List Char) : List (List Char) :=
  collapse (rootSlashes (forwardSlashes p) != 0) (segments (forwardSlashes p))

theorem cleanSegments_shape (p : List Char) :
    ∃ n plain, cleanSegments p = List.replicate n dotDot ++ plain ∧ ∀ s ∈ plain, IsPlain s := by
  have hseg : ∀ s ∈ segments (forwardSlashes p), '/' ∉ s ∧ '\\' ∉ s := fun s hs =>
    ⟨not_mem_segments hs, fun hc => not_mem_forwardSlashes p (mem_of_mem_segments hs hc)⟩
  have hstack : IsStack ((segments (forwardSlashes p)).foldl
      (push (rootSlashes (forwardSlashes p) != 0)) []) :=
    isStack_foldl ⟨[], 0, rfl, by simp⟩ hseg
  obtain ⟨plain, n, hk, hplain⟩ := hstack
  refine ⟨n, plain.reverse, ?_, fun s hs => hplain s (List.mem_reverse.mp hs)⟩
  unfold cleanSegments collapse
  rw [hk, List.reverse_append, List.reverse_replicate]

/-- A text without slashes, too long to be one for a directory, ends the last segment of the cleaned path. -/
theorem exists_cleanSegments_append {t : List Char} (ht : '/' ∉ t ∧ '\\' ∉ t) (hlong : 2 < t.length) (p : List Char) :
    ∃ ss s, cleanSegments (p ++ t) = ss ++ [s ++ t] := by
  obtain ⟨ss, s, hcut⟩ := exists_segments_cut (forwardSlashes p)
  have heq := hcut t t [] (segments_of_not_mem ht.1)
  rw [← forwardSlashes_of_not_mem ht.2, ← forwardSlashes_append, forwardSlashes_of_not_mem ht.2] at heq
  have hlength : 2 < (s ++ t).length := by
    rw [List.length_append]
    omega
  have hdown : isStepDown (s ++ t) := by
    rw [isStepDown_iff]
    refine ⟨?_, ?_, ?_⟩ <;> intro heq <;> rw [heq] at hlength <;> exact absurd hlength (by decide)
  refine ⟨(ss.foldl (push (rootSlashes (forwardSlashes (p ++ t)) != 0)) []).reverse, s, ?_⟩
  unfold cleanSegments collapse
  rw [heq, List.foldl_append, List.foldl_cons, List.foldl_nil, push_stepDown hdown, List.reverse_cons]

/-- Without the slashes that it begins with a path is its segments. -/
theorem dropWhile_slashes {ss : List (List Char)} (h : ∀ s ∈ ss, s ≠ [] ∧ '/' ∉ s) (k : Nat) :
    (List.replicate k '/' ++ join ss).dropWhile (· = '/') = join ss := by
  induction k with
  | zero =>
    rw [List.replicate_zero, List.nil_append]
    cases hj : join ss with
    | nil => rfl
    | cons c r =>
      have hhead := head_join h
      rw [hj, List.head?_cons, Ne, Option.some.injEq] at hhead
      rw [List.dropWhile_cons, if_neg (by simpa using hhead)]
  | succ k ih => rw [List.replicate_succ, List.cons_append, List.dropWhile_cons, if_pos (by simp), ih]

theorem names_cleanSegments (p : List Char) : ∀ s ∈ cleanSegments p, s ≠ [] ∧ '/' ∉ s := by
  obtain ⟨n, plain, hshape, hplain⟩ := cleanSegments_shape p
  intro s hs
  rw [hshape, List.mem_append] at hs
  rcases hs with hs | hs
  · rw [List.eq_of_mem_replicate hs]
    decide
  · exact ⟨(hplain s hs).ne_nil, (hplain s hs).noSlash⟩

theorem cleanChars_eq (p : List Char) : cleanChars p = spellChars (cleanSegments p) := by
  unfold cleanChars normalizeChars spellChars
  show orDot ((orDot (_ ++ join (cleanSegments p))).dropWhile (· = '/')) = _
  generalize rootSlashes (forwardSlashes p) = k
  by_cases hnil : List.replicate k '/' ++ join (cleanSegments p) = []
  · rw [List.append_eq_nil_iff] at hnil
    rw [hnil.1, hnil.2]
    rfl
  · rw [show orDot (List.replicate k '/' ++ join (cleanSegments p)) = _ from if_neg hnil,
      dropWhile_slashes (names_cleanSegments p)]

theorem segments_spellChars {ss : List (List Char)} (h : ∀ s ∈ ss, s ≠ [] ∧ '/' ∉ s) :
    segments (spellChars ss) = if ss = [] then [['.']] else ss := by
  unfold spellChars orDot
  by_cases hss : ss = []
  · subst hss
    rfl
  · rw [if_neg (join_ne_nil hss h), if_neg hss, segments_join hss fun s hs => (h s hs).2]

/-- A path climbs if its first segment does. -/
theorem climbs_iff (p : List Char) : climbs p ↔ (segments p).head? = some dotDot := by
  unfold climbs
  constructor
  · intro h
    rw [Bool.or_eq_true, decide_eq_true_eq] at h
    rcases h with rfl | h
    · rfl
    · obtain ⟨r, rfl⟩ := List.isPrefixOf_iff_prefix.mp h
      rw [List.append_assoc, List.singleton_append, segments_append]
      rfl
  · intro h
    have hp := join_segments p
    cases hs : segments p with
    | nil => exact absurd hs (segments_ne_nil p)
    | cons s ss =>
      rw [hs, List.head?_cons, Option.some.injEq] at h
      subst h
      rw [hs] at hp
      cases ss with
      | nil =>
        rw [← hp]
        rfl
      | cons t ts =>
        rw [← hp]
        rfl

/-- A cleaned path spells the segments of the path, which are plain. -/
theorem clean_segments {p c : String} (h : clean p = .ok c) :
    (∀ s ∈ cleanSegments p.toList, IsPlain s) ∧ c = spell (cleanSegments p.toList) := by
  obtain ⟨n, plain, hshape, hplain⟩ := cleanSegments_shape p.toList
  unfold clean at h
  rw [cleanChars_eq] at h
  dsimp only at h
  split at h
  · cases h
  · next hclimb =>
    cases h
    rw [climbs_iff, segments_spellChars (names_cleanSegments p.toList), hshape] at hclimb
    cases n with
    | zero =>
      refine ⟨?_, rfl⟩
      rw [hshape]
      exact hplain
    | succ n => exact absurd rfl hclimb

/-- A cleaned path is a layer path. -/
theorem clean_eq_ok {p c : String} (h : clean p = .ok c) :
    ∃ ss, (∀ s ∈ ss, IsPlain s) ∧ c = spell ss :=
  ⟨_, clean_segments h⟩

theorem not_climbs_spellChars {ss : List (List Char)} (hss : ∀ s ∈ ss, IsPlain s) : ¬ climbs (spellChars ss) := by
  rw [climbs_iff, segments_spellChars fun s hs => ⟨(hss s hs).ne_nil, (hss s hs).noSlash⟩]
  intro hhead
  split at hhead
  · cases hhead
  · exact (hss _ (List.mem_of_head? hhead)).ne_dotDot rfl

/-- A path whose segments collapse to plain names is their spelling. -/
theorem clean_of_cleanSegments {p : String} {ss : List (List Char)} (hss : ∀ s ∈ ss, IsPlain s)
    (h : cleanSegments p.toList = ss) : clean p = .ok (spell ss) := by
  unfold clean
  rw [cleanChars_eq, h]
  dsimp only
  rw [if_neg (not_climbs_spellChars hss), spell]

section Names

variable {ss : List (List Char)} {name : List Char}

theorem plain_segments (hss : ∀ s ∈ ss, IsPlain s) : ∀ s ∈ ss, s ≠ [] ∧ '/' ∉ s :=
  fun s hs => ⟨(hss s hs).ne_nil, (hss s hs).noSlash⟩

theorem spellChars_eq_join (hss : ∀ s ∈ ss, IsPlain s) (hnil : ss ≠ []) : spellChars ss = join ss :=
  if_neg (join_ne_nil hnil (plain_segments hss))

theorem spell_eq_join (hss : ∀ s ∈ ss, IsPlain s) (hnil : ss ≠ []) : spell ss = String.ofList (join ss) :=
  congrArg String.ofList (spellChars_eq_join hss hnil)

theorem not_mem_spellChars (hss : ∀ s ∈ ss, IsPlain s) : '\\' ∉ spellChars ss := by
  intro h
  unfold spellChars orDot at h
  split at h
  · rw [List.mem_singleton] at h
    cases h
  · rcases mem_join h with h | ⟨s, hs, h⟩
    · cases h
    · exact (hss s hs).noBackslash h

theorem filter_segments (hss : ∀ s ∈ ss, IsPlain s) :
    (segments (spellChars ss)).filter (· ≠ ['.']) = ss := by
  rw [segments_spellChars (plain_segments hss)]
  split
  · next h => subst h; rfl
  · exact List.filter_eq_self.mpr fun s hs => by simpa using (hss s hs).ne_dot

theorem foldl_push_spellChars (rooted : Bool) (kept : List (List Char)) (hss : ∀ s ∈ ss, IsPlain s) :
    (segments (spellChars ss)).foldl (push rooted) kept = ss.reverse ++ kept := by
  rw [segments_spellChars (plain_segments hss)]
  split
  · next h =>
    subst h
    rfl
  · exact foldl_push_plain hss

/-- A layer path spells itself. -/
theorem clean_spell (hss : ∀ s ∈ ss, IsPlain s) : clean (spell ss) = .ok (spell ss) := by
  refine clean_of_cleanSegments hss ?_
  unfold cleanSegments collapse spell
  rw [String.toList_ofList, forwardSlashes_of_not_mem (not_mem_spellChars hss),
    foldl_push_spellChars _ _ hss, List.append_nil, List.reverse_reverse]

theorem rootSlashes_eq_zero_iff (p : List Char) : rootSlashes p = 0 ↔ p.head? ≠ some '/' := by
  unfold rootSlashes
  split
  · simp
  · simp
  · simp
  · next h =>
    refine ⟨fun _ hp => ?_, fun _ => rfl⟩
    obtain ⟨r, rfl⟩ := List.head?_eq_some_iff.mp hp
    exact h r rfl

/-- The segments of a name below a path: those of the path and one more. -/
theorem cleanSegments_concat (p : List Char) (hname : '/' ∉ name ∧ '\\' ∉ name) :
    ∃ rooted, cleanSegments (concatChars p name) =
      (push rooted (cleanSegments p).reverse name).reverse := by
  have hrooted : ∀ q : List Char, p ≠ [] →
      (rootSlashes (forwardSlashes (p ++ q)) != 0) = (rootSlashes (forwardSlashes p) != 0) := by
    intro q hp
    have hh : (forwardSlashes (p ++ q)).head? = (forwardSlashes p).head? := by
      rw [forwardSlashes_append]
      cases p with
      | nil => exact absurd rfl hp
      | cons c r => rfl
    have h1 := rootSlashes_eq_zero_iff (forwardSlashes (p ++ q))
    have h2 := rootSlashes_eq_zero_iff (forwardSlashes p)
    rw [hh] at h1
    rw [Bool.eq_iff_iff, bne_iff_ne, bne_iff_ne, Ne, Ne, h1, h2]
  have hname' := forwardSlashes_of_not_mem hname.2
  have hseg := segments_of_not_mem hname.1
  unfold concatChars
  rw [if_neg fun h => hname.1 (List.mem_of_head? h)]
  split
  · next hp =>
    rcases hp with rfl | hlast
    · refine ⟨false, ?_⟩
      have hzero : rootSlashes name = 0 :=
        (rootSlashes_eq_zero_iff name).mpr fun h => hname.1 (List.mem_of_head? h)
      unfold cleanSegments collapse
      rw [List.nil_append, hname', hseg, hzero, List.foldl_cons]
      rfl
    · obtain ⟨front, rfl⟩ := List.getLast?_eq_some_iff.mp hlast
      refine ⟨rootSlashes (forwardSlashes (front ++ ['/'])) != 0, ?_⟩
      unfold cleanSegments collapse
      rw [hrooted name (by simp), forwardSlashes_append (front ++ ['/']) name,
        forwardSlashes_append front ['/'], hname',
        show forwardSlashes ['/'] = '/' :: [] from rfl, List.append_assoc, List.cons_append,
        List.nil_append, segments_append, segments_append, hseg, List.foldl_append,
        List.foldl_append, List.reverse_reverse]
      rfl
  · next hp =>
    rw [not_or] at hp
    refine ⟨rootSlashes (forwardSlashes p) != 0, ?_⟩
    unfold cleanSegments collapse
    rw [hrooted _ hp.1, forwardSlashes_append, show forwardSlashes ('/' :: name) = '/' :: forwardSlashes name from rfl,
      hname', segments_append, hseg, List.foldl_append, List.reverse_reverse]
    rfl

theorem spellChars_append (hss : ∀ s ∈ ss, IsPlain s) (hname : IsPlain name) :
    spellChars (ss ++ [name]) = if ss = [] then name else join ss ++ '/' :: name := by
  unfold spellChars orDot
  by_cases hs : ss = []
  · subst hs
    rw [if_pos rfl, List.nil_append]
    exact if_neg hname.ne_nil
  · rw [if_neg hs, join_append hs, if_neg]
    simp

theorem dropWhile_reverse {s : List Char} (hs : '/' ∉ s) (r : List Char) :
    (s.reverse ++ r).dropWhile (· ≠ '/') = r.dropWhile (· ≠ '/') := by
  rw [List.dropWhile_append_of_pos]
  intro c hc
  rw [decide_eq_true_eq]
  rintro rfl
  exact hs (List.mem_reverse.mp hc)

/-- The directory of a name below a layer path is that path. -/
theorem parent_spell (hss : ∀ s ∈ ss, IsPlain s) (hname : IsPlain name) :
    parent (spell (ss ++ [name])) = spell ss := by
  unfold parent spell
  rw [String.toList_ofList, spellChars_append hss hname]
  congr 1
  unfold spellChars dirChars
  split
  · next hs =>
    subst hs
    have := dropWhile_reverse hname.noSlash []
    rw [List.append_nil] at this
    rw [this]
    rfl
  · next hs =>
    have hne := join_ne_nil hs (plain_segments hss)
    have hlast := getLast_join (plain_segments hss)
    have hhead := head_join (plain_segments hss)
    have hdir : ((join ss ++ '/' :: name).reverse.dropWhile (· ≠ '/')).reverse = join ss ++ ['/'] := by
      rw [List.reverse_append, List.reverse_cons, List.append_assoc, dropWhile_reverse hname.noSlash,
        List.singleton_append, List.dropWhile_cons, if_neg (by simp), List.reverse_cons,
        List.reverse_reverse]
    rw [hdir]
    dsimp only
    rw [if_neg]
    · rw [List.reverse_append, List.reverse_singleton, List.singleton_append, List.dropWhile_cons,
        if_pos (by simp)]
      rw [← List.head?_reverse] at hlast
      cases hr : (join ss).reverse with
      | nil => exact absurd (List.reverse_eq_nil_iff.mp hr) hne
      | cons c r =>
        rw [hr, List.head?_cons, Ne, Option.some.injEq] at hlast
        rw [List.dropWhile_cons, if_neg (by simpa using hlast), ← hr, List.reverse_reverse]
    · cases hj : join ss with
      | nil => exact absurd hj hne
      | cons c r =>
        rw [hj, List.head?_cons, Ne, Option.some.injEq] at hhead
        simp [hhead]

theorem baseName_spell (hss : ∀ s ∈ ss, IsPlain s) (hname : IsPlain name) :
    baseName (spell (ss ++ [name])) = String.ofList name := by
  have htake : ∀ r : List Char, (name.reverse ++ r).takeWhile (· ≠ '/') =
      name.reverse ++ r.takeWhile (· ≠ '/') := by
    intro r
    rw [List.takeWhile_append_of_pos]
    intro c hc
    rw [decide_eq_true_eq]
    rintro rfl
    exact hname.noSlash (List.mem_reverse.mp hc)
  unfold baseName spell
  rw [String.toList_ofList, spellChars_append hss hname]
  congr 1
  unfold baseChars
  split
  · have := htake []
    rw [List.append_nil] at this
    rw [this, List.takeWhile_nil, List.append_nil, List.reverse_reverse]
  · rw [List.reverse_append, List.reverse_cons, List.append_assoc, htake, List.singleton_append,
      List.takeWhile_cons, if_neg (by simp), List.append_nil, List.reverse_reverse]

theorem isPlain_concat (hss : ∀ s ∈ ss, IsPlain s) (hname : IsPlain name) : ∀ s ∈ ss ++ [name], IsPlain s :=
  List.forall_mem_append.mpr ⟨hss, List.forall_mem_singleton.mpr hname⟩

theorem spell_injective {ts : List (List Char)} (hss : ∀ s ∈ ss, IsPlain s)
    (hts : ∀ s ∈ ts, IsPlain s) (h : spell ss = spell ts) : ss = ts := by
  rw [← filter_segments hss, ← filter_segments hts, String.ofList_injective h]

/-- A plain name below a path. -/
theorem clean_concat {p : String} (hss : ∀ s ∈ ss, IsPlain s) (hp : clean p = .ok (spell ss))
    (hname : IsPlain name) :
    clean (concat p (String.ofList name)) = .ok (spell (ss ++ [name])) := by
  obtain ⟨rooted, hseg⟩ := cleanSegments_concat p.toList ⟨hname.noSlash, hname.noBackslash⟩
  obtain ⟨hplain, hspell⟩ := clean_segments hp
  rw [← spell_injective hss hplain hspell, push_stepDown hname.isStepDown, List.reverse_cons, List.reverse_reverse] at hseg
  refine clean_of_cleanSegments ?_ ?_
  · exact isPlain_concat hss hname
  · unfold concat
    rw [String.toList_ofList, String.toList_ofList]
    exact hseg

/-- A name without slashes that is not plain leads to the path itself or to one above it. -/
theorem clean_concat_above {p x : String} (hss : ∀ s ∈ ss, IsPlain s) (hp : clean p = .ok (spell ss))
    (hname : '/' ∉ name ∧ '\\' ∉ name) (hplain : ¬ IsPlain name)
    (hx : clean (concat p (String.ofList name)) = .ok x) :
    ∃ us, us <+: ss ∧ x = spell us := by
  obtain ⟨rooted, hseg⟩ := cleanSegments_concat p.toList hname
  obtain ⟨hplain', hspell⟩ := clean_segments hp
  obtain ⟨hus, rfl⟩ := clean_segments hx
  unfold concat at hus ⊢
  rw [String.toList_ofList, String.toList_ofList, hseg, ← spell_injective hss hplain' hspell] at hus ⊢
  refine ⟨_, ?_, rfl⟩
  rcases segment_cases name with hblank | rfl | hdown
  · refine ⟨[], ?_⟩
    rw [push_blank hblank, List.reverse_reverse, List.append_nil]
  · cases hr : ss.reverse with
    | nil =>
      -- without a directory to leave, the path climbs or stays at the root
      rw [hr] at hus
      cases rooted with
      | false => exact absurd rfl (hus dotDot (by decide)).ne_dotDot
      | true => exact List.nil_prefix
    | cons s us =>
      have hs := hss s (List.mem_reverse.mp (by rw [hr]; exact List.mem_cons_self))
      rw [push_dotDot_cons hs.ne_dotDot]
      refine ⟨[s], ?_⟩
      rw [← List.reverse_cons, ← hr, List.reverse_reverse]
  · exact absurd (isPlain_of_isStepDown hdown hname) hplain

end Names

end GoSplice.Path
