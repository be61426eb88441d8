import GoSplice.Proofs.DryRun
import GoSplice.Proofs.PartImports
import Mathlib.Data.List.Nodup
import Mathlib.Data.List.Perm.Subperm
import Mathlib.Tactic.Tauto

/-!
# Bytes that a pass over repeated imports deletes

A spec is repeated if an earlier one of the file imports its path.  A pass over repeated imports
deletes the imports all of whose specs are repeated, and the repeated specs of the others, byte for
byte:

    InOrder pos source.length rs →
      delete source pos rs = the bytes from pos on that no range of rs holds         (delete_eq_pick)
    ImportsPlaced f.source.length f.declarations →
      f.withoutRepeatedImports = the bytes of f at offsets that it does not delete   (withoutRepeatedImports_eq_pick)
    parse name source strict = ok f → ImportsPlaced …                                (importsPlaced_of_parse)
-/

namespace GoSplice

/-! ## Bytes outside of ranges -/

namespace Splice

section Pick

variable {p q : Nat → Prop} [DecidablePred p] [DecidablePred q] {pos : Nat} {bs : Bytes}

/-- The bytes at offsets with a property, the first byte at offset `pos`. -/
def pick (p : Nat → Prop) [DecidablePred p] (pos : Nat) : Bytes → Bytes
  | [] => []
  | b :: bs => if p pos then b :: pick p (pos + 1) bs else pick p (pos + 1) bs

theorem pick_append (a b : Bytes) : pick p pos (a ++ b) = pick p pos a ++ pick p (pos + a.length) b := by
  induction a generalizing pos with
  | nil => rfl
  | cons x a ih =>
    have hlen : pos + (x :: a).length = pos + 1 + a.length := by
      rw [List.length_cons]
      omega
    rw [List.cons_append, pick, pick, ih, hlen]
    split <;> rfl

theorem pick_congr (h : ∀ o, pos ≤ o → o < pos + bs.length → (p o ↔ q o)) : pick p pos bs = pick q pos bs := by
  induction bs generalizing pos with
  | nil => rfl
  | cons b bs ih =>
    rw [List.length_cons] at h
    have hrest : pick p (pos + 1) bs = pick q (pos + 1) bs := ih fun o h1 h2 => h o (by omega) (by omega)
    have hfirst := h pos (Nat.le_refl _) (by omega)
    rw [pick, pick, hrest]
    by_cases hp : p pos
    · rw [if_pos hp, if_pos (hfirst.mp hp)]
    · rw [if_neg hp, if_neg fun hq => hp (hfirst.mpr hq)]

theorem pick_eq_nil (h : ∀ o, pos ≤ o → o < pos + bs.length → ¬ p o) : pick p pos bs = [] := by
  induction bs generalizing pos with
  | nil => rfl
  | cons b bs ih =>
    rw [List.length_cons] at h
    rw [pick, if_neg (h pos (Nat.le_refl _) (by omega))]
    exact ih fun o h1 h2 => h o (by omega) (by omega)

theorem length_pick_le : (pick p pos bs).length ≤ bs.length := by
  induction bs generalizing pos with
  | nil => exact Nat.le_refl _
  | cons b bs ih =>
    have hrest := @ih (pos + 1)
    rw [pick]
    split
    · exact Nat.succ_le_succ hrest
    · exact Nat.le_succ_of_le hrest

/-- All bytes are taken just if the property holds of all offsets. -/
theorem pick_eq_self_iff : pick p pos bs = bs ↔ ∀ o, pos ≤ o → o < pos + bs.length → p o := by
  induction bs generalizing pos with
  | nil => exact iff_of_true rfl fun o h1 h2 => absurd h2 (Nat.not_lt.mpr h1)
  | cons b bs ih =>
    rw [pick, List.length_cons]
    split
    · next hp =>
      rw [List.cons.injEq, and_iff_right rfl, ih]
      refine ⟨fun h o h1 h2 => ?_, fun h o h1 h2 => h o (by omega) (by omega)⟩
      rcases Nat.eq_or_lt_of_le h1 with rfl | h1
      · exact hp
      · exact h o h1 (by omega)
    · next hp =>
      refine iff_of_false (fun h => ?_) fun h => hp (h pos (Nat.le_refl _) (by omega))
      have hlen := @length_pick_le p _ (pos + 1) bs
      rw [h, List.length_cons] at hlen
      omega

end Pick

/-- Whether an offset is that of a byte of the range. -/
def Range.Holds (r : Range) (o : Nat) : Prop := r.start ≤ o ∧ o < r.stop

instance (r : Range) (o : Nat) : Decidable (r.Holds o) := inferInstanceAs (Decidable (_ ∧ _))

/-- Ranges one behind the other, between two offsets. -/
structure InOrder (lo hi : Nat) (rs : List Range) : Prop where
  ordered : rs.Pairwise fun r s => r.stop ≤ s.start
  inside : ∀ r ∈ rs, lo ≤ r.start ∧ r.start ≤ r.stop ∧ r.stop ≤ hi

theorem InOrder.tail {lo hi : Nat} {r : Range} {rs : List Range} (h : InOrder lo hi (r :: rs)) : InOrder r.stop hi rs := by
  obtain ⟨hr, hrs⟩ := List.pairwise_cons.mp h.ordered
  refine ⟨hrs, fun s hs => ?_⟩
  obtain ⟨-, h2, h3⟩ := h.inside s (List.mem_cons_of_mem r hs)
  exact ⟨hr s hs, h2, h3⟩

theorem drop_eq_slice_append {source : Bytes} {a b : Nat} (hab : a ≤ b) (hb : b ≤ source.length) :
    source.drop a = slice source a b ++ source.drop b := by
  conv => lhs; rw [← List.take_append_drop b source, List.drop_append]
  rw [slice, List.length_take, Nat.min_eq_left hb, Nat.sub_eq_zero_of_le hab, List.drop_zero]

/-- Ranges one behind the other are deleted, and nothing else. -/
theorem delete_eq_pick {source : Bytes} {pos : Nat} {rs : List Range} (h : InOrder pos source.length rs) :
    delete source pos rs = pick (fun o => ∀ r ∈ rs, ¬ r.Holds o) pos (source.drop pos) := by
  induction rs generalizing pos with
  | nil => exact (pick_eq_self_iff.mpr fun _ _ _ => List.forall_mem_nil _).symm
  | cons r rs ih =>
    obtain ⟨hlo, hle, hhi⟩ := h.inside r List.mem_cons_self
    have htail := h.tail
    -- the bytes before the range, those of it, and those behind it
    have hsplit : source.drop pos = slice source pos r.start ++ (slice source r.start r.stop ++ source.drop r.stop) := by
      rw [← drop_eq_slice_append hle hhi, ← drop_eq_slice_append hlo (by omega)]
    have hbefore : pos + (slice source pos r.start).length = r.start := by
      rw [slice, List.length_drop, List.length_take]
      omega
    have hwithin : r.start + (slice source r.start r.stop).length = r.stop := by
      rw [slice, List.length_drop, List.length_take]
      omega
    rw [delete, hsplit, pick_append, hbefore, pick_append, hwithin, ih htail]
    have hkept : pick (fun o => ∀ s ∈ r :: rs, ¬ s.Holds o) pos (slice source pos r.start) = slice source pos r.start := by
      refine pick_eq_self_iff.mpr fun o _ ho => List.forall_mem_cons.mpr ⟨fun hr => ?_, fun s hs hheld => ?_⟩
      · have := hr.1
        omega
      · have := (htail.inside s hs).1
        have := hheld.1
        omega
    have hgone : pick (fun o => ∀ s ∈ r :: rs, ¬ s.Holds o) r.start (slice source r.start r.stop) = [] := by
      refine pick_eq_nil fun o h1 h2 hout => ?_
      exact (List.forall_mem_cons.mp hout).1 ⟨h1, by omega⟩
    rw [hkept, hgone, List.nil_append]
    refine congrArg _ (pick_congr fun o ho _ => ?_)
    rw [List.forall_mem_cons]
    exact (and_iff_right fun hr => Nat.not_lt.mpr ho hr.2).symm

end Splice

/-! ## Repeated specs -/

/-- The specs of an import; other declarations have none. -/
def Declaration.importSpecs (d : Declaration) : List ImportSpec :=
  match d.declared with
  | .imports specs _ => specs
  | _ => []

theorem Declaration.importSpecs_eq {d : Declaration} {specs : List ImportSpec} {close : Option Nat}
    (h : d.declared = .imports specs close) : d.importSpecs = specs ∧ d.declared.isImport := by
  rw [importSpecs, h]
  exact ⟨rfl, rfl⟩

theorem Declaration.importSpecs_of_not_import {d : Declaration} (h : ¬ d.declared.isImport) : d.importSpecs = [] := by
  unfold importSpecs
  split
  · next hd =>
    rw [hd] at h
    exact absurd rfl h
  · rfl

theorem Declaration.isImport_of_mem {d : Declaration} {s : ImportSpec} (hs : s ∈ d.importSpecs) : d.declared.isImport := by
  by_contra hnot
  rw [importSpecs_of_not_import hnot] at hs
  cases hs

/-- Imports one behind the other, with their specs one behind the other in them. -/
structure ImportsPlaced (size : Nat) (ds : List Declaration) : Prop where
  ordered : ds.Pairwise fun d e => d.declared.isImport → e.declared.isImport → d.stop ≤ e.start
  bounds : ∀ d ∈ ds, d.declared.isImport → d.start < d.stop ∧ d.stop ≤ size
  specsOrdered : ∀ d ∈ ds, d.importSpecs.Pairwise fun s t => s.stop ≤ t.start
  nested : ∀ d ∈ ds, ∀ s ∈ d.importSpecs, d.start ≤ s.start ∧ s.start < s.stop ∧ s.stop ≤ d.stop

theorem ImportsPlaced.tail {size : Nat} {d : Declaration} {ds : List Declaration} (h : ImportsPlaced size (d :: ds)) :
    ImportsPlaced size ds :=
  ⟨(List.pairwise_cons.mp h.ordered).2, fun e he => h.bounds e (List.mem_cons_of_mem d he),
    fun e he => h.specsOrdered e (List.mem_cons_of_mem d he), fun e he => h.nested e (List.mem_cons_of_mem d he)⟩

/-- The specs of declarations, in order. -/
def specsOf (ds : List Declaration) : List ImportSpec := ds.flatMap Declaration.importSpecs

/-- Whether a spec imports a path that was seen, or that an earlier spec imports. -/
def IsAgain (seen : List String) (specs : List ImportSpec) (s : ImportSpec) : Prop :=
  s.path ∈ seen ∨ ∃ t ∈ specs, t.start < s.start ∧ t.path = s.path

instance (seen : List String) (specs : List ImportSpec) (s : ImportSpec) : Decidable (IsAgain seen specs s) :=
  inferInstanceAs (Decidable (_ ∨ _))

namespace RepeatedImports

section Specs

variable {seen : List String} {specs : List ImportSpec}

theorem repeated_sublist (seen : List String) (specs : List ImportSpec) : (repeated seen specs).Sublist specs := by
  induction specs generalizing seen with
  | nil => exact .slnil
  | cons s ss ih =>
    rw [repeated]
    split
    · exact (ih _).cons_cons s
    · exact (ih _).cons s

/-- Of specs in order, those are repeated whose path was seen or stands earlier. -/
theorem mem_repeated_iff (h : specs.Pairwise fun s t => s.start < t.start) (s : ImportSpec) :
    s ∈ repeated seen specs ↔ s ∈ specs ∧ IsAgain seen specs s := by
  induction specs generalizing seen with
  | nil => simp [repeated]
  | cons t ts ih =>
    obtain ⟨ht, hts⟩ := List.pairwise_cons.mp h
    have hfirst : s ∈ ts → s ≠ t := fun hs heq => Nat.lt_irrefl _ (heq ▸ ht s hs)
    have hearlier : s ∈ ts → (IsAgain seen (t :: ts) s ↔ t.path = s.path ∨ IsAgain seen ts s) := fun hs => by
      have := ht s hs
      simp only [IsAgain, List.exists_mem_cons_iff]
      tauto
    have hnone : ¬ ∃ u ∈ t :: ts, u.start < t.start ∧ u.path = t.path := by
      rintro ⟨u, hu, hlt, -⟩
      rcases List.mem_cons.mp hu with rfl | hu
      · omega
      · have := ht u hu
        omega
    rw [repeated, List.mem_cons]
    by_cases hseen : t.path ∈ seen
    · rw [if_pos (List.contains_iff_mem.mpr hseen), List.mem_cons, ih hts]
      constructor
      · rintro (rfl | ⟨hs, hagain⟩)
        · exact ⟨.inl rfl, .inl hseen⟩
        · exact ⟨.inr hs, (hearlier hs).mpr (.inr hagain)⟩
      · rintro ⟨rfl | hs, hagain⟩
        · exact .inl rfl
        · refine .inr ⟨hs, ((hearlier hs).mp hagain).elim (fun heq => .inl (heq ▸ hseen)) id⟩
    · rw [if_neg fun hc => hseen (List.contains_iff_mem.mp hc), ih hts]
      constructor
      · rintro ⟨hs, hagain⟩
        refine ⟨.inr hs, (hearlier hs).mpr ?_⟩
        rcases hagain with hpath | hagain
        · exact (List.mem_cons.mp hpath).imp Eq.symm .inl
        · exact .inr (.inr hagain)
      · rintro ⟨rfl | hs, hagain⟩
        · exact absurd hagain (not_or.mpr ⟨hseen, hnone⟩)
        · refine ⟨hs, ?_⟩
          rcases (hearlier hs).mp hagain with heq | hpath | hagain
          · exact .inl (List.mem_cons.mpr (.inl heq.symm))
          · exact .inl (List.mem_cons_of_mem _ hpath)
          · exact .inr hagain

/-- No spec is left just if all of them are repeated. -/
theorem length_repeated_iff (h : specs.Pairwise fun s t => s.start < t.start) :
    (repeated seen specs).length = specs.length ↔ ∀ s ∈ specs, IsAgain seen specs s := by
  have hsub := repeated_sublist seen specs
  constructor
  · intro hlen s hs
    rw [← hsub.eq_of_length hlen] at hs
    exact ((mem_repeated_iff h s).mp hs).2
  · intro hall
    have hnodup : specs.Nodup := h.imp fun {s t} hlt (heq : s = t) => Nat.lt_irrefl _ (heq ▸ hlt)
    have hsubset : specs ⊆ repeated seen specs := fun s hs => (mem_repeated_iff h s).mpr ⟨hs, hall s hs⟩
    exact Nat.le_antisymm hsub.length_le (hnodup.subperm hsubset).length_le

end Specs

end RepeatedImports

open RepeatedImports Splice

namespace ImportsPlaced

variable {size : Nat} {d : Declaration} {ds : List Declaration} {seen : List String}

theorem specs_lt (h : ImportsPlaced size ds) (hd : d ∈ ds) : d.importSpecs.Pairwise fun s t => s.start < t.start :=
  (h.specsOrdered d hd).imp_of_mem fun hs _ hle => Nat.lt_of_lt_of_le (h.nested d hd _ hs).2.1 hle

/-- Specs of one import begin before those of a later one. -/
theorem lt_of_later (h : ImportsPlaced size (d :: ds)) {s t : ImportSpec} (hs : s ∈ d.importSpecs) (ht : t ∈ specsOf ds) :
    s.start < t.start := by
  obtain ⟨e, he, ht⟩ := List.mem_flatMap.mp ht
  have hle := (List.pairwise_cons.mp h.ordered).1 e he (Declaration.isImport_of_mem hs) (Declaration.isImport_of_mem ht)
  obtain ⟨-, h2, h3⟩ := h.nested d List.mem_cons_self s hs
  have h4 := (h.nested e (List.mem_cons_of_mem d he) t ht).1
  omega

/-- The specs of a file are in order. -/
theorem pairwise_specs (h : ImportsPlaced size ds) : (specsOf ds).Pairwise fun s t => s.start < t.start := by
  induction ds with
  | nil => exact .nil
  | cons d ds ih =>
    rw [specsOf, List.flatMap_cons, List.pairwise_append]
    exact ⟨h.specs_lt List.mem_cons_self, ih h.tail, fun s hs t ht => h.lt_of_later hs ht⟩

/-! ## Ranges that are deleted -/

/-- The ranges of an import that are deleted lie in it, in order. -/
theorem inOrder_rangesOf (h : ImportsPlaced size ds) (hd : d ∈ ds) (himport : d.declared.isImport) :
    InOrder d.start d.stop (rangesOf seen d d.importSpecs) := by
  unfold rangesOf
  dsimp only
  split
  · refine ⟨List.pairwise_singleton _ _, List.forall_mem_singleton.mpr ?_⟩
    exact ⟨Nat.le_refl _, Nat.le_of_lt (h.bounds d hd himport).1, Nat.le_refl _⟩
  · refine ⟨List.pairwise_map.mpr ((h.specsOrdered d hd).sublist (repeated_sublist _ _)), fun r hr => ?_⟩
    obtain ⟨s, hs, rfl⟩ := List.mem_map.mp hr
    obtain ⟨h1, h2, h3⟩ := h.nested d hd s (mem_of_mem_repeated hs)
    exact ⟨h1, Nat.le_of_lt h2, h3⟩

theorem inOrder_ranges (h : ImportsPlaced size ds) {lo : Nat} (hlo : ∀ d ∈ ds, d.declared.isImport → lo ≤ d.start) :
    InOrder lo size (ranges seen ds) := by
  induction ds generalizing seen lo with
  | nil => exact ⟨.nil, List.forall_mem_nil _⟩
  | cons d ds ih =>
    have hrest := fun e he => hlo e (List.mem_cons_of_mem d he)
    rw [ranges]
    split
    · next specs close hd =>
      obtain ⟨hspecs, himport⟩ := Declaration.importSpecs_eq hd
      have hfirst : InOrder d.start d.stop (rangesOf seen d d.importSpecs) := h.inOrder_rangesOf List.mem_cons_self himport
      rw [hspecs] at hfirst
      have hothers : InOrder d.stop size (ranges (specs.map (·.path) ++ seen) ds) :=
        ih h.tail fun e he => (List.pairwise_cons.mp h.ordered).1 e he himport
      have hstart := hlo d List.mem_cons_self himport
      have hstop := (h.bounds d List.mem_cons_self himport)
      refine ⟨List.pairwise_append.mpr ⟨hfirst.ordered, hothers.ordered, fun r hr s hs => ?_⟩,
        List.forall_mem_append.mpr ⟨fun r hr => ?_, fun r hr => ?_⟩⟩
      · exact Nat.le_trans (hfirst.inside r hr).2.2 (hothers.inside s hs).1
      · obtain ⟨h1, h2, h3⟩ := hfirst.inside r hr
        omega
      · obtain ⟨h1, h2, h3⟩ := hothers.inside r hr
        omega
    · exact ih h.tail hrest

end ImportsPlaced

/-- Whether an import, some paths being seen and some specs standing in its file, loses the byte at
an offset: it goes with the import if all specs of that are repeated, and else with its spec. -/
def Declaration.Loses (d : Declaration) (seen : List String) (specs : List ImportSpec) (o : Nat) : Prop :=
  d.declared.isImport ∧
    if ∀ s ∈ d.importSpecs, IsAgain seen specs s then d.start ≤ o ∧ o < d.stop
    else ∃ s ∈ d.importSpecs, IsAgain seen specs s ∧ s.start ≤ o ∧ o < s.stop

instance (d : Declaration) (seen : List String) (specs : List ImportSpec) (o : Nat) : Decidable (d.Loses seen specs o) :=
  inferInstanceAs (Decidable (_ ∧ ite _ _ _))

theorem Declaration.loses_congr {d : Declaration} {seen seen' : List String} {specs specs' : List ImportSpec}
    (h : ∀ s ∈ d.importSpecs, IsAgain seen specs s ↔ IsAgain seen' specs' s) (o : Nat) :
    d.Loses seen specs o ↔ d.Loses seen' specs' o := by
  have hall : (∀ s ∈ d.importSpecs, IsAgain seen specs s) ↔ ∀ s ∈ d.importSpecs, IsAgain seen' specs' s :=
    forall₂_congr h
  have hsome : (∃ s ∈ d.importSpecs, IsAgain seen specs s ∧ s.start ≤ o ∧ o < s.stop) ↔
      ∃ s ∈ d.importSpecs, IsAgain seen' specs' s ∧ s.start ≤ o ∧ o < s.stop := by
    refine exists_congr fun s => and_congr_right fun hs => ?_
    rw [h s hs]
  unfold Loses
  simp only [hall, hsome]

/-- The ranges of an import hold the bytes that it loses. -/
theorem ImportsPlaced.exists_rangesOf_iff {size : Nat} {d : Declaration} {ds : List Declaration}
    (h : ImportsPlaced size ds) (hd : d ∈ ds) (himport : d.declared.isImport) (seen : List String) (o : Nat) :
    (∃ r ∈ rangesOf seen d d.importSpecs, r.Holds o) ↔ d.Loses seen d.importSpecs o := by
  unfold rangesOf Declaration.Loses
  dsimp only
  rw [and_iff_right himport]
  simp only [length_repeated_iff (h.specs_lt hd)]
  split
  · exact ⟨fun ⟨r, hr, hheld⟩ => by rwa [List.mem_singleton.mp hr] at hheld, fun hheld => ⟨_, List.mem_singleton_self _, hheld⟩⟩
  · constructor
    · rintro ⟨r, hr, hheld⟩
      obtain ⟨s, hs, rfl⟩ := List.mem_map.mp hr
      obtain ⟨hs, hagain⟩ := (mem_repeated_iff (h.specs_lt hd) s).mp hs
      exact ⟨s, hs, hagain, hheld⟩
    · rintro ⟨s, hs, hagain, hheld⟩
      exact ⟨_, List.mem_map_of_mem ((mem_repeated_iff (h.specs_lt hd) s).mpr ⟨hs, hagain⟩), hheld⟩

/-- The ranges that are deleted hold the bytes that the imports of the file lose. -/
theorem ImportsPlaced.exists_ranges_iff {size : Nat} {ds : List Declaration} {seen : List String}
    (h : ImportsPlaced size ds) (o : Nat) :
    (∃ r ∈ ranges seen ds, r.Holds o) ↔ ∃ d ∈ ds, d.Loses seen (specsOf ds) o := by
  induction ds generalizing seen with
  | nil => simp [ranges]
  | cons d ds ih =>
    rw [List.exists_mem_cons_iff, ranges]
    split
    · next specs close hd =>
      obtain ⟨hspecs, himport⟩ := Declaration.importSpecs_eq hd
      have hfirst := h.exists_rangesOf_iff List.mem_cons_self himport seen o
      rw [hspecs] at hfirst
      simp only [List.mem_append, or_and_right, exists_or, hfirst, ih h.tail]
      refine or_congr (Declaration.loses_congr (fun s hs => or_congr_right ?_) o) (exists_congr fun e =>
        and_congr_right fun he => Declaration.loses_congr (fun s hs => ?_) o)
      · -- no spec of a later import stands earlier
        refine exists_congr fun t => and_congr_left fun hlt => ⟨fun ht => ?_, fun ht => ?_⟩
        · exact List.mem_append_left _ (hspecs ▸ ht)
        · rcases List.mem_append.mp ht with ht | ht
          · exact hspecs ▸ ht
          · have := h.lt_of_later hs ht
            omega
      · -- those of this import do
        have hearlier : ∀ t ∈ specs, t.start < s.start := fun t ht =>
          h.lt_of_later (hspecs ▸ ht) (List.mem_flatMap.mpr ⟨e, he, hs⟩)
        have hsame : specsOf (d :: ds) = specs ++ specsOf ds := by rw [specsOf, List.flatMap_cons, hspecs]; rfl
        have hthere : (∃ t ∈ specs, t.start < s.start ∧ t.path = s.path) ↔ s.path ∈ specs.map (·.path) := by
          rw [List.mem_map]
          exact exists_congr fun t => and_congr_right fun ht => and_iff_right (hearlier t ht)
        unfold IsAgain
        simp only [hsame, List.mem_append, or_and_right, exists_or, hthere]
        tauto
    · next hd =>
      have himport : ¬ d.declared.isImport := by
        intro himport
        unfold Declared.isImport at himport
        split at himport
        · next specs close heq => exact hd specs close heq
        · cases himport
      have hsame : specsOf (d :: ds) = specsOf ds := by
        rw [specsOf, List.flatMap_cons, Declaration.importSpecs_of_not_import himport]
        rfl
      rw [hsame, ih h.tail]
      exact (or_iff_right fun hloses => himport hloses.1).symm

/-! ## Files -/

namespace SourceFile

variable {f : SourceFile}

/-- Whether an earlier spec of a file imports the path of a spec. -/
def Repeats (f : SourceFile) (s : ImportSpec) : Prop :=
  ∃ t ∈ specsOf f.declarations, t.start < s.start ∧ t.path = s.path

instance (f : SourceFile) (s : ImportSpec) : Decidable (f.Repeats s) :=
  inferInstanceAs (Decidable (∃ t ∈ _, _))

/-- Whether the byte at an offset of a file is repeated: it belongs to an import all of whose specs are
repeated, or to a repeated spec of another import. -/
def RepeatsAt (f : SourceFile) (o : Nat) : Prop :=
  ∃ d ∈ f.declarations, d.declared.isImport ∧
    if ∀ s ∈ d.importSpecs, f.Repeats s then d.start ≤ o ∧ o < d.stop
    else ∃ s ∈ d.importSpecs, f.Repeats s ∧ s.start ≤ o ∧ o < s.stop

instance (f : SourceFile) : DecidablePred f.RepeatsAt := fun _ =>
  inferInstanceAs (Decidable (∃ d ∈ f.declarations, _ ∧ ite _ _ _))

theorem repeatsAt_iff (f : SourceFile) (o : Nat) :
    f.RepeatsAt o ↔ ∃ d ∈ f.declarations, d.Loses [] (specsOf f.declarations) o := by
  have hsame : ∀ s, f.Repeats s ↔ IsAgain [] (specsOf f.declarations) s := fun s => (or_iff_right List.not_mem_nil).symm
  unfold RepeatsAt Declaration.Loses
  simp only [hsame]

/-- Where no byte is repeated, all paths are different and each import has a spec, and the other way
round. -/
theorem forall_not_repeatsAt_iff (h : ImportsPlaced f.source.length f.declarations) :
    (∀ o < f.source.length, ¬ f.RepeatsAt o) ↔
      ((specsOf f.declarations).map (·.path)).Nodup ∧ ∀ d ∈ f.declarations, d.declared.isImport → d.importSpecs ≠ [] := by
  have hplaced : ∀ d ∈ f.declarations, d.declared.isImport → d.start < f.source.length := fun d hd himport => by
    have := h.bounds d hd himport
    omega
  constructor
  · intro hnone
    have hwhole : ∀ d ∈ f.declarations, d.declared.isImport → ¬ ∀ s ∈ d.importSpecs, f.Repeats s :=
      fun d hd himport hall => hnone d.start (hplaced d hd himport)
        ⟨d, hd, himport, by rw [if_pos hall]; exact ⟨Nat.le_refl _, (h.bounds d hd himport).1⟩⟩
    have hspec : ∀ s ∈ specsOf f.declarations, ¬ f.Repeats s := by
      intro s hs hagain
      obtain ⟨d, hd, hs⟩ := List.mem_flatMap.mp hs
      have himport := Declaration.isImport_of_mem hs
      obtain ⟨h1, h2, h3⟩ := h.nested d hd s hs
      have h4 := (h.bounds d hd himport).2
      refine hnone s.start (by omega) ⟨d, hd, himport, ?_⟩
      rw [if_neg (hwhole d hd himport)]
      exact ⟨s, hs, hagain, Nat.le_refl _, h2⟩
    refine ⟨List.pairwise_map.mpr (h.pairwise_specs.imp_of_mem fun hs ht hlt heq => hspec _ ht ⟨_, hs, hlt, heq⟩), ?_⟩
    intro d hd himport hnil
    exact hwhole d hd himport (by rw [hnil]; exact List.forall_mem_nil _)
  · rintro ⟨hnodup, hsome⟩ o - ⟨d, hd, himport, hlost⟩
    have hspec : ∀ s ∈ d.importSpecs, ¬ f.Repeats s := by
      rintro s hs ⟨t, ht, hlt, hpath⟩
      have heq := List.inj_on_of_nodup_map hnodup ht (List.mem_flatMap.mpr ⟨d, hd, hs⟩) hpath
      exact Nat.lt_irrefl _ (heq ▸ hlt)
    split at hlost
    · next hall =>
      obtain ⟨s, hs⟩ := List.exists_mem_of_ne_nil _ (hsome d hd himport)
      exact hspec s hs (hall s hs)
    · obtain ⟨s, hs, hagain, -⟩ := hlost
      exact hspec s hs hagain

/-- A pass over repeated imports deletes the bytes that are repeated and leaves all others; it leaves a
file as it is just if all paths are different and each import has a spec. -/
theorem withoutRepeatedImports_eq_pick (h : ImportsPlaced f.source.length f.declarations) :
    f.withoutRepeatedImports = pick (fun o => ¬ f.RepeatsAt o) 0 f.source ∧
      (f.withoutRepeatedImports = f.source ↔ ((specsOf f.declarations).map (·.path)).Nodup ∧
        ∀ d ∈ f.declarations, d.declared.isImport → d.importSpecs ≠ []) := by
  have hbytes : f.withoutRepeatedImports = pick (fun o => ¬ f.RepeatsAt o) 0 f.source := by
    have hranges : InOrder 0 f.source.length (ranges [] f.declarations) := h.inOrder_ranges fun _ _ _ => Nat.zero_le _
    rw [withoutRepeatedImports, delete_eq_pick hranges, List.drop_zero]
    refine pick_congr fun o _ _ => ?_
    rw [f.repeatsAt_iff, ← h.exists_ranges_iff]
    exact ⟨fun hnone ⟨r, hr, hheld⟩ => hnone r hr hheld, fun hnone r hr hheld => hnone ⟨r, hr, hheld⟩⟩
  refine ⟨hbytes, ?_⟩
  rw [hbytes, pick_eq_self_iff, ← forall_not_repeatsAt_iff h, Nat.zero_add]
  exact ⟨fun hall o ho => hall o (Nat.zero_le _) ho, fun hall o _ ho => hall o ho⟩

end SourceFile

/-- The imports of a file that was read are placed so. -/
theorem importsPlaced_of_parse {filename : String} {source : Bytes} {strict : Bool} {f : SourceFile}
    (h : SourceFile.parse filename source strict = .ok f) : ImportsPlaced f.source.length f.declarations := by
  obtain ⟨s, hs⟩ := parse_eq_ok_iff.mp h
  have hspecs : ∀ d ∈ f.declarations, d.importSpecs = [] ∨
      ∃ close, SpecsPlaced source d.start d.stop d.importSpecs close := fun d hd => by
    unfold Declaration.importSpecs
    split
    · next specs close hdecl => exact .inr ⟨close, (hs.wellPlaced hd).specs specs close hdecl⟩
    · exact .inl rfl
  refine ⟨hs.pairwise.imp_of_mem fun {d e} _ he hle _ _ => Nat.le_trans hle (hs.wellPlaced he).splice_le, fun d hd _ => ?_,
    fun d hd => ?_, fun d hd s hmem => ?_⟩
  · rw [hs.source_eq]
    exact ⟨(hs.wellPlaced hd).start_lt, (hs.wellPlaced hd).stop_le⟩
  · rcases hspecs d hd with hnil | ⟨close, hplaced⟩
    · rw [hnil]
      exact .nil
    · exact hplaced.ordered
  · rcases hspecs d hd with hnil | ⟨close, hplaced⟩
    · rw [hnil] at hmem
      cases hmem
    · exact hplaced.inside s hmem

/-- Imports of which one goes as a whole, and of another a spec. -/
def threeImports : Bytes :=
  bytesOf "package a\n\nimport \"x\" // first\nimport x \"x\" // again\n\nimport (\n\t\"y\"; z \"x\"\n)\n"

theorem threeImports_eq_pick : ∃ f, SourceFile.parse "a.go" threeImports true = .ok f ∧
    ImportsPlaced f.source.length f.declarations ∧
    f.withoutRepeatedImports = bytesOf "package a\n\nimport \"x\" // first\n // again\n\nimport (\n\t\"y\"; \n)\n" ∧
    f.withoutRepeatedImports = pick (fun o => ¬ f.RepeatsAt o) 0 f.source ∧
      (f.withoutRepeatedImports = f.source ↔ ((specsOf f.declarations).map (·.path)).Nodup ∧
        ∀ d ∈ f.declarations, d.declared.isImport → d.importSpecs ≠ []) := by
  have hparse : (SourceFile.parse "a.go" threeImports true).toOption.map SourceFile.withoutRepeatedImports =
      some (bytesOf "package a\n\nimport \"x\" // first\n // again\n\nimport (\n\t\"y\"; \n)\n") := by decide +kernel
  obtain ⟨f, hf, hout⟩ := Option.map_eq_some_iff.mp hparse
  replace hf := Package.eq_ok_of_toOption hf
  have hplaced := importsPlaced_of_parse hf
  exact ⟨f, hf, hplaced, hout, SourceFile.withoutRepeatedImports_eq_pick hplaced⟩

end GoSplice
