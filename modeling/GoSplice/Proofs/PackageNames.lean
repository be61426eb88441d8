import GoSplice.Proofs.Loading

/-!
# Names of packages

The names of the files of a package, and of the package itself, depend on which
names there are, not on their order or number:

    (∀ n, n ∈ as ↔ n ∈ bs) → sortedNames as = sortedNames bs                  (sortedNames_congr)
    p.deriveName names.eraseDups = ok n ↔ IsNameOf p names n ∧ isName n    (deriveName_eq_ok_iff)
-/

namespace GoSplice

/-! ## Names in order -/

theorem nodup_eraseDups {α : Type} [BEq α] [LawfulBEq α] (ns : List α) : ns.eraseDups.Nodup := by
  generalize hn : ns.length = n
  induction n using Nat.strongRecOn generalizing ns with
  | ind n ih =>
    cases ns with
    | nil => exact .nil
    | cons a as =>
      rw [List.eraseDups_cons, List.nodup_cons]
      have hle := List.length_filter_le (!· == a) as
      rw [List.length_cons] at hn
      refine ⟨?_, ih _ (by omega) _ rfl⟩
      rw [List.mem_eraseDups, List.mem_filter]
      simp

theorem pairwise_mergeSort_names (ns : List String) : (ns.mergeSort fun a b => a ≤ b).Pairwise (· ≤ ·) := by
  have htrans : ∀ a b c : String, decide (a ≤ b) → decide (b ≤ c) → decide (a ≤ c) := by
    intro a b c hab hbc
    rw [decide_eq_true_eq] at *
    exact String.le_trans hab hbc
  have htotal : ∀ a b : String, decide (a ≤ b) || decide (b ≤ a) := by
    intro a b
    rw [Bool.or_eq_true, decide_eq_true_eq, decide_eq_true_eq]
    exact String.le_total a b
  exact (List.pairwise_mergeSort htrans htotal ns).imp of_decide_eq_true

/-- Names without repetitions are in order in one way only. -/
theorem mergeSort_congr {as bs : List String} (has : as.Nodup) (hbs : bs.Nodup) (h : ∀ n, n ∈ as ↔ n ∈ bs) :
    as.mergeSort (fun a b => a ≤ b) = bs.mergeSort fun a b => a ≤ b := by
  have hperm : (as.mergeSort fun a b => a ≤ b).Perm (bs.mergeSort fun a b => a ≤ b) := by
    refine (List.mergeSort_perm _ _).trans (.trans ?_ (List.mergeSort_perm _ _).symm)
    exact (List.perm_ext_iff_of_nodup has hbs).mpr h
  exact hperm.eq_of_pairwise (fun a b _ _ => String.le_antisymm) (pairwise_mergeSort_names as)
    (pairwise_mergeSort_names bs)

/-- Names without repetitions ascend when they are sorted. -/
theorem pairwise_lt_mergeSort {ns : List String} (h : ns.Nodup) : (ns.mergeSort fun a b => a ≤ b).Pairwise (· < ·) := by
  have hnodup : (ns.mergeSort fun a b => a ≤ b).Nodup := (List.mergeSort_perm _ _).nodup_iff.mpr h
  refine ((pairwise_mergeSort_names ns).and hnodup).imp fun {a b} hab => ?_
  exact String.not_le.mp fun hba => hab.2 (String.le_antisymm hab.1 hba)

/-- Sorted names ascend, each once. -/
theorem pairwise_sortedNames (ns : List String) : (Package.sortedNames ns).Pairwise (· < ·) :=
  pairwise_lt_mergeSort (nodup_eraseDups ns)

/-- Sorted names depend on what is a name only. -/
theorem sortedNames_congr {as bs : List String} (h : ∀ n, n ∈ as ↔ n ∈ bs) :
    Package.sortedNames as = Package.sortedNames bs := by
  refine mergeSort_congr (nodup_eraseDups as) (nodup_eraseDups bs) fun n => ?_
  rw [List.mem_eraseDups, List.mem_eraseDups]
  exact h n

namespace Package

variable {p q : Package}

/-! ## Names of packages -/

theorem eq_singleton_of_nodup {α : Type} {n : α} {l : List α} (hnodup : l.Nodup) (hmem : n ∈ l)
    (hall : ∀ m ∈ l, m = n) : l = [n] := by
  cases l with
  | nil => cases hmem
  | cons a l =>
    rw [List.forall_mem_cons] at hall
    cases l with
    | nil => rw [hall.1]
    | cons b l =>
      have hb : b = a := (hall.2 b List.mem_cons_self).trans hall.1.symm
      rw [List.nodup_cons, hb] at hnodup
      exact absurd List.mem_cons_self hnodup.1

theorem eraseDups_eq_singleton {n : String} {ns : List String} (hmem : n ∈ ns) (hall : ∀ m ∈ ns, m = n) :
    ns.eraseDups = [n] :=
  eq_singleton_of_nodup (nodup_eraseDups ns) (List.mem_eraseDups.mpr hmem)
    fun m hm => hall m (List.mem_eraseDups.mp hm)

/-- Whether a name is that of an external test package. -/
def IsTestName (n : String) : Prop := testSuffix.isSuffixOf n.toList

/-- Whether a name is that of a package whose files have some package names: the only one, or
the only one that is not that of an external test package. -/
inductive IsNameOf (p : Package) (names : List String) (n : String) : Prop
  | noFile : names = [] → n = p.nameOfPath → IsNameOf p names n
  | only : n ∈ names → (∀ m ∈ names, m = n) → IsNameOf p names n
  | besideTests : n ∈ names → ¬ IsTestName n → (∀ m ∈ names, m = n ∨ IsTestName m) → IsNameOf p names n

theorem nameOfClauses_eq_ok {names : List String} {n : String}
    (h : nameOfClauses names.eraseDups = .ok n) (hn : isName n.toList) : IsNameOf p names n := by
  unfold nameOfClauses at h
  split at h
  · next m hm =>
    cases h
    have hall : ∀ m ∈ names, m ∈ [n] := fun m hmem => hm ▸ List.mem_eraseDups.mpr hmem
    refine .only (List.mem_eraseDups.mp (hm ▸ List.mem_singleton.mpr rfl)) fun m hmem => ?_
    exact List.mem_singleton.mp (hall m hmem)
  · next hmany =>
    split at h
    · cases h
      exact absurd hn (by decide)
    · next m hm =>
      cases h
      have hmem : ∀ m, m ∈ names ∧ ¬ IsTestName m ↔ m = n := by
        intro m
        rw [← List.mem_singleton, ← hm, List.mem_filter, List.mem_eraseDups, Bool.not_eq_true', Bool.eq_false_iff]
        rfl
      obtain ⟨h1, h2⟩ := (hmem n).mpr rfl
      refine .besideTests h1 h2 fun m hm => ?_
      by_cases htest : IsTestName m
      · exact Or.inr htest
      · exact Or.inl ((hmem m).mp ⟨hm, htest⟩)
    · cases h

theorem deriveName_eq_ok {names : List String} {n : String} : p.deriveName names = .ok n ↔
    (if names.isEmpty then .ok p.nameOfPath else nameOfClauses names) = .ok n ∧ isName n.toList := by
  have hcheck : ∀ m, (if isName m.toList then .ok m else .error (.invalidPackageName m) :
      Except PatchError String) = .ok n ↔ m = n ∧ isName n.toList := by
    intro m
    by_cases hname : isName m.toList
    · rw [if_pos hname, Except.ok.injEq]
      exact ⟨fun h => ⟨h, h ▸ hname⟩, And.left⟩
    · rw [if_neg hname]
      constructor
      · rintro ⟨⟩
      · rintro ⟨rfl, h⟩
        exact absurd h hname
  unfold deriveName
  dsimp only
  split
  · exact (hcheck _).trans (and_congr_left fun _ => by rw [Except.ok.injEq])
  · cases nameOfClauses names with
    | error e =>
      constructor
      · rintro ⟨⟩
      · rintro ⟨⟨⟩, -⟩
    | ok m => exact (hcheck m).trans (and_congr_left fun _ => by rw [Except.ok.injEq])

theorem isEmpty_eraseDups {names : List String} (h : names ≠ []) : names.eraseDups.isEmpty = false := by
  cases names with
  | nil => exact absurd rfl h
  | cons a as => rw [List.eraseDups_cons]; rfl

theorem nameOfClauses_of_isNameOf {names : List String} {n : String} (hne : names ≠ [])
    (h : IsNameOf p names n) : nameOfClauses names.eraseDups = .ok n := by
  cases h with
  | noFile hnil => exact absurd hnil hne
  | only hmem hall => rw [eraseDups_eq_singleton hmem hall]; rfl
  | besideTests hmem htest hall =>
    unfold nameOfClauses
    split
    · next m hm =>
      have hn : n ∈ names.eraseDups := List.mem_eraseDups.mpr hmem
      rw [hm] at hn
      rw [List.mem_singleton.mp hn]
    · have hfilter : names.eraseDups.filter (fun n => !testSuffix.isSuffixOf n.toList) = [n] := by
        refine eq_singleton_of_nodup ((nodup_eraseDups names).filter _) ?_ fun m hm => ?_
        · rw [List.mem_filter, List.mem_eraseDups]
          exact ⟨hmem, (Bool.not_eq_true' _).mpr (Bool.eq_false_iff.mpr htest)⟩
        · rw [List.mem_filter, List.mem_eraseDups] at hm
          exact (hall m hm.1).resolve_right (Bool.eq_false_iff.mp ((Bool.not_eq_true' _).mp hm.2))
      rw [hfilter]

/-- The name of a package follows from the set of the names of its files. -/
theorem deriveName_eq_ok_iff {names : List String} {n : String} :
    p.deriveName names.eraseDups = .ok n ↔ IsNameOf p names n ∧ isName n.toList := by
  rw [deriveName_eq_ok]
  refine and_congr_left fun hname => ?_
  by_cases hne : names = []
  · subst hne
    constructor
    · rintro ⟨⟩
      exact .noFile rfl rfl
    · intro h
      cases h with
      | noFile _ hn => rw [hn]; rfl
      | only hmem => cases hmem
      | besideTests hmem => cases hmem
  · rw [isEmpty_eraseDups hne]
    exact ⟨fun h => nameOfClauses_eq_ok h hname, nameOfClauses_of_isNameOf hne⟩

/-- The name that files give to a package depends on its place alone. -/
theorem deriveName_congr (hdirectory : q.directory = p.directory) (hmodule : q.modulePath = p.modulePath)
    (names : List String) : q.deriveName names = p.deriveName names := by
  unfold deriveName nameOfPath
  rw [hdirectory, hmodule]

theorem IsNameOf.of_all {names : List String} {n : String} (h : p.nameOfPath = n)
    (hall : ∀ m ∈ names, m = n) : IsNameOf p names n := by
  cases names with
  | nil => exact .noFile rfl h.symm
  | cons m ms => exact .only (hall m List.mem_cons_self ▸ List.mem_cons_self) hall

/-- The name of a package stays when files of that name, or of names that there are, are added. -/
theorem IsNameOf.of_subset {names names' : List String} {n : String} (h : IsNameOf p names n)
    (hold : ∀ m ∈ names, m ∈ names') (hnew : ∀ m ∈ names', m ∈ names ∨ m = n)
    (hfirst : names = [] → n ∈ names') : IsNameOf q names' n := by
  cases h with
  | noFile hnil =>
    refine .only (hfirst hnil) fun m hm => (hnew m hm).resolve_left ?_
    rw [hnil]
    exact List.not_mem_nil
  | only hmem hall => exact .only (hold n hmem) fun m hm => (hnew m hm).elim (hall m) id
  | besideTests hmem htest hall =>
    exact .besideTests (hold n hmem) htest fun m hm => (hnew m hm).elim (hall m) Or.inl

end Package

end GoSplice
