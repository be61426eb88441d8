import GoSplice.Proofs.JoinedPaths

/-!
# Paths that climb

A path is refused as soon as a walk along its segments comes to be above the directory that it starts
from, and only then.  A path that begins with a slash starts at the root, which has nothing above it:
its steps up from there stay where they are, and it is never refused.

    dotDot ∈ ss.foldl (push false) kept ↔
      some beginning of ss has more steps up than kept and it have names      (dotDot_mem_foldl_iff)
    clean p = error ⟨p⟩ ↔ dotDot ∈ cleanSegments p                            (clean_eq_error_iff)
    clean p = error ⟨p⟩ ↔ p begins with no slash, and ClimbsOut (its segments)   (clean_refuses)
-/

namespace GoSplice.Path

/-! ## Walks -/

/-- Whether a walk along segments comes to be above its start: some beginning of it has more steps up
than steps down. -/
def ClimbsOut (ss : List (List Char)) : Prop := ∃ us, us <+: ss ∧ us.countP isStepDown < us.count dotDot

/-- A beginning of a list is empty, or has its first element before a beginning of the rest. -/
theorem exists_prefix_cons {α : Type} {P : List α → Prop} {s : α} {ss : List α} :
    (∃ us, us <+: s :: ss ∧ P us) ↔ P [] ∨ ∃ us, us <+: ss ∧ P (s :: us) := by
  constructor
  · rintro ⟨us, hus, h⟩
    rcases List.prefix_cons_iff.mp hus with rfl | ⟨vs, rfl, hvs⟩
    · exact .inl h
    · exact .inr ⟨vs, hvs, h⟩
  · rintro (h | ⟨us, hus, h⟩)
    · exact ⟨[], List.nil_prefix, h⟩
    · exact ⟨s :: us, (List.prefix_cons_inj s).mpr hus, h⟩

section Walks

variable {kept ss : List (List Char)}

/-- From a path that does not climb a walk leaves a step up behind if it comes to be above the path's
start: some beginning has more steps up than the path and it have names. -/
theorem dotDot_mem_foldl_iff (h : dotDot ∉ kept) : dotDot ∈ ss.foldl (push false) kept ↔
    ∃ us, us <+: ss ∧ kept.length + us.countP isStepDown < us.count dotDot := by
  induction ss generalizing kept with
  | nil => simp [h]
  | cons s ss ih =>
    rw [List.foldl_cons, exists_prefix_cons]
    rcases segment_cases s with hblank | rfl | hdown
    · have hdown : ¬ isStepDown s := by rcases hblank with rfl | rfl <;> decide
      have hup : s ≠ dotDot := by rcases hblank with rfl | rfl <;> decide
      rw [push_blank hblank, ih h]
      simp [hdown, hup]
    · have hdown : ¬ isStepDown dotDot := by decide
      cases kept with
      | nil =>
        have hclimbs : dotDot ∈ ss.foldl (push false) (push false [] dotDot) :=
          dotDot_mem_foldl List.mem_cons_self ss
        refine iff_of_true hclimbs (.inr ⟨[], List.nil_prefix, ?_⟩)
        simp [hdown]
      | cons t kept =>
        rw [List.mem_cons, not_or] at h
        rw [push_dotDot_cons (Ne.symm h.1), ih h.2]
        have hstep : ∀ us : List (List Char),
            (kept.length + 1 + us.countP isStepDown < us.count dotDot + 1 ↔
              kept.length + us.countP isStepDown < us.count dotDot) := fun us => by omega
        simp [hdown, hstep]
    · have hup : s ≠ dotDot := (isStepDown_iff.mp hdown).2.2
      have hmem : dotDot ∉ s :: kept := by
        rw [List.mem_cons, not_or]
        exact ⟨Ne.symm hup, h⟩
      have hstep : ∀ us : List (List Char), kept.length + 1 + us.countP isStepDown =
          kept.length + (us.countP isStepDown + 1) := fun us => by omega
      rw [push_stepDown hdown, ih hmem]
      simp [hdown, hup, hstep]

/-- Below a root there is no step up to leave behind. -/
theorem dotDot_notMem_push (h : dotDot ∉ kept) (s : List Char) : dotDot ∉ push true kept s := by
  rcases segment_cases s with hblank | rfl | hdown
  · rwa [push_blank hblank]
  · cases kept with
    | nil => exact List.not_mem_nil
    | cons t kept =>
      rw [List.mem_cons, not_or] at h
      rw [push_dotDot_cons (Ne.symm h.1)]
      exact h.2
  · rw [push_stepDown hdown, List.mem_cons, not_or]
    exact ⟨Ne.symm (isStepDown_iff.mp hdown).2.2, h⟩

theorem dotDot_notMem_foldl (h : dotDot ∉ kept) (ss : List (List Char)) : dotDot ∉ ss.foldl (push true) kept := by
  induction ss generalizing kept with
  | nil => exact h
  | cons s ss ih => exact ih (dotDot_notMem_push h s)

end Walks

/-! ## Paths that are refused -/

theorem isPlain_of_dotDot_notMem {p : List Char} (h : dotDot ∉ cleanSegments p) : ∀ s ∈ cleanSegments p, IsPlain s := by
  obtain ⟨n, plain, hshape, hplain⟩ := cleanSegments_shape p
  cases n with
  | zero =>
    rw [hshape]
    exact hplain
  | succ n =>
    refine absurd ?_ h
    rw [hshape]
    exact List.mem_cons_self

theorem eq_of_clean_eq_error {p : String} {e : Escape} (h : clean p = .error e) : e = ⟨p⟩ := by
  unfold clean at h
  dsimp only at h
  split at h
  · exact (Except.error.inj h).symm
  · cases h

/-- A path is refused if its segments collapse to steps up. -/
theorem clean_eq_error_iff {p : String} : clean p = .error ⟨p⟩ ↔ dotDot ∈ cleanSegments p.toList := by
  by_cases hmem : dotDot ∈ cleanSegments p.toList
  · refine iff_of_true ?_ hmem
    cases hclean : clean p with
    | error e => rw [eq_of_clean_eq_error hclean]
    | ok c => exact absurd rfl ((clean_segments hclean).1 dotDot hmem).ne_dotDot
  · refine iff_of_false ?_ hmem
    rw [clean_of_cleanSegments (isPlain_of_dotDot_notMem hmem) rfl]
    nofun

/-- A path is refused exactly if it begins with no slash and a walk along its segments, where slashes and
backslashes are the same, comes to be above its start.  All others have a layer path. -/
theorem clean_refuses (p : String) :
    (clean p = .error ⟨p⟩ ↔
      (forwardSlashes p.toList).head? ≠ some '/' ∧ ClimbsOut (segments (forwardSlashes p.toList))) ∧
    ((∃ c, clean p = .ok c) ↔
      (forwardSlashes p.toList).head? = some '/' ∨ ¬ ClimbsOut (segments (forwardSlashes p.toList))) := by
  have hrefused : clean p = .error ⟨p⟩ ↔
      (forwardSlashes p.toList).head? ≠ some '/' ∧ ClimbsOut (segments (forwardSlashes p.toList)) := by
    rw [clean_eq_error_iff, cleanSegments, collapse, List.mem_reverse]
    by_cases hroot : (forwardSlashes p.toList).head? = some '/'
    · have hslashes : (rootSlashes (forwardSlashes p.toList) != 0) = true :=
        bne_iff_ne.mpr fun hzero => (rootSlashes_eq_zero_iff _).mp hzero hroot
      rw [hslashes]
      exact iff_of_false (dotDot_notMem_foldl List.not_mem_nil _) fun h => h.1 hroot
    · have hslashes : (rootSlashes (forwardSlashes p.toList) != 0) = false := by
        rw [(rootSlashes_eq_zero_iff _).mpr hroot]
        rfl
      rw [hslashes, dotDot_mem_foldl_iff List.not_mem_nil]
      simp [hroot, ClimbsOut]
  refine ⟨hrefused, ?_⟩
  have haccepted : (∃ c, clean p = .ok c) ↔ clean p ≠ .error ⟨p⟩ := by
    cases hclean : clean p with
    | ok c => simp
    | error e => simp [eq_of_clean_eq_error hclean]
  rw [haccepted, Ne, hrefused, Classical.not_and_iff_not_or_not, Classical.not_not]

/-- Two steps up behind one name are refused, and the same from the root are not. -/
example : clean "a\\../../b" = .error ⟨"a\\../../b"⟩ ∧ clean "/a\\../../b" = .ok "b" := ⟨rfl, rfl⟩

end GoSplice.Path
