import GoSplice.Package.Find
import GoSplice.Proofs.BoundNames
import GoSplice.Proofs.Spellings
import Mathlib.Order.Bounds.Basic

/-!
# Loose searches for types

A search for a type gives its first declaration, in the order of file names and then of the source.  A loose search
settles on a name first: at the first level at which a type matches, the least one.  It finds what an exact search
finds, and every type by its spelling in file names:

    findSubject? (type name) = some m ↔ IsFirst name m                                      (Ordered.isFirst_iff)
    (levels separator wanted).findSome? typeNames.find? = some name ↔ Picks separator wanted name
                                                                                            (findSome?_levels_iff)
    findTypeLoose search p = (ok info, q) ↔ Picks separator wanted info.name ∧ IsFirst info.name info.found
                                                                                           (findTypeLoose_complete)
-/

namespace GoSplice

open Syntax

/-! ## Names of types -/

section Names

variable {filename : String} {source : Bytes} {strict : Bool} {f : SourceFile} {s : List Char}

theorem type_of_declaredBy {comments : List Comment} {t : Node} {names : List String}
    (h : Declaration.declaredBy source comments t = .ok (.type names)) : t.label = .typeDecl ∧
      names = (Declaration.withLabel .spec t).map (Declaration.childText source .name) := by
  unfold Declaration.declaredBy at h
  split at h
  case h_5 hl =>
    cases h
    exact ⟨hl, rfl⟩
  case h_6 =>
    cases hspecs : (Declaration.withLabel .importSpec t).mapM (Declaration.importSpecOf source) with
    | error e => rw [hspecs] at h; cases h
    | ok specs => rw [hspecs] at h; cases h
  all_goals cases h

theorem Grammar.yields_typeSpec :
    ∀ o ∈ Grammar.openings, o.label = .typeDecl → o.rest.Yields (· = Grammar.typeSpec) := by
  unfold Grammar.openings Grammar.outerOpenings Grammar.innerOpenings
  rw [List.cons_append, List.cons_append, List.cons_append, List.cons_append, List.nil_append]
  repeat rw [List.forall_mem_cons]
  exact ⟨nofun, nofun, nofun, nofun, nofun, nofun, fun _ => ⟨⟨trivial, ⟨rfl, trivial, trivial⟩, ⟨rfl, trivial⟩,
    trivial⟩, rfl⟩, List.forall_mem_nil _⟩

/-- A spec of a type begins with the name that it declares. -/
theorem name_of_typeSpec {c e : Place} {x : Node} (h : Matches Grammar.rules Grammar.typeSpec c ⟨[x], e⟩) :
    ∃ n ∈ c.tokens, n.kind ∈ [Kind.name, .constant, .allocator] ∧ ∃ ys, x.children = nameNode n :: ys := by
  cases h with
  | node h _ _ =>
    cases h with
    | seq hname _ =>
      obtain ⟨n, hn, hkind, hnode⟩ := hname.node_token
      exact ⟨n, hn ▸ List.mem_cons_self, hkind, _, congrArg (· ++ _) hnode⟩

/-- The names of types are names of the grammar. -/
theorem Parsed.isNameText_of_type (h : Parsed filename source strict f s) {d : Declaration} (hd : d ∈ f.declarations)
    {names : List String} (htype : d.declared = .type names) : ∀ n ∈ names, IsNameText n.toList := by
  obtain ⟨pre, t, post, -, ht, hat⟩ := h.readInOrder hd
  have hdeclared := hat.declared
  rw [htype] at hdeclared
  obtain ⟨hl, rfl⟩ := type_of_declaredBy hdeclared
  obtain ⟨c, e, hc, hm⟩ := (read_textItems h.refusal).matched (startOf_orderly s) t ht
  have hopened : Grammar.IsOpened .typeDecl := by
    show Label.typeDecl ∈ Grammar.openings.map Grammar.Opening.label
    decide
  refine List.forall_mem_map.mpr fun x hx => ?_
  obtain ⟨c', e', hc', hm'⟩ := spec_of_mem_children hopened Grammar.yields_typeSpec hc.orderly hm hl x
    (Declaration.mem_withLabel hx)
  obtain ⟨n, hn, hkind, ys, hchildren⟩ := name_of_typeSpec hm'
  have hword : IsWord s n.kind (nameNode n).start (nameNode n).stop := ((hc.trans hc').orderly.2.of_mem n hn).2.1
  have htext := isNameText_of_isWord hword hkind
  rw [← h.encode_eq] at htext
  rw [Declaration.childText, Declaration.childTexts, hchildren]
  exact htext

end Names

namespace Members

variable {files : Members} {name separator wanted : String} {m : Match}

/-! ## First declarations -/

/-- Whether a type is declared in some files. -/
def Declares (files : Members) (name : String) : Prop :=
  ∃ f ∈ files, ∃ d ∈ f.declarations, name ∈ declaredTypes d.declared

/-- Whether a match is the first declaration of a type, in the order of file names and then of the source. -/
structure IsFirst (files : Members) (name : String) (m : Match) : Prop where
  file : m.file ∈ files
  declaration : m.declaration ∈ m.file.declarations
  declares : name ∈ declaredTypes m.declaration.declared
  first : ∀ f ∈ files, ∀ d ∈ f.declarations, name ∈ declaredTypes d.declared →
    m.file.filename < f.filename ∨ m.file = f ∧ (m.declaration = d ∨ m.declaration.start < d.start)

/-- Files in the order of their names, with declarations in the order of the source. -/
structure Ordered (files : Members) : Prop where
  declarations : ∀ f ∈ files, f.declarations.Pairwise (·.start < ·.start)
  names : List.Pairwise (·.filename < ·.filename) files

theorem IsFirst.unique {m' : Match} (h : IsFirst files name m) (h' : IsFirst files name m') : m = m' := by
  have hle := h.first m'.file h'.file m'.declaration h'.declaration h'.declares
  have hge := h'.first m.file h.file m.declaration h.declaration h.declares
  have hfile : m.file = m'.file := by
    rcases hle with hlt | ⟨hfile, -⟩
    · rcases hge with hgt | ⟨hfile, -⟩
      · exact absurd hgt (String.lt_asymm hlt)
      · exact hfile.symm
    · exact hfile
  have hdeclaration : m.declaration = m'.declaration := by
    have hirrefl := String.lt_irrefl m.file.filename
    rw [← hfile] at hle hge
    rcases (hle.resolve_left hirrefl).2 with hd | hd
    · exact hd
    · rcases (hge.resolve_left hirrefl).2 with hd' | hd'
      · exact hd'.symm
      · omega
  cases m
  cases m'
  cases hfile
  cases hdeclaration
  rfl

theorem isDeclaredBy_type {d : Declared} : (Subject.type name).isDeclaredBy d ↔ name ∈ declaredTypes d := by
  cases d <;> simp [Subject.isDeclaredBy, declaredTypes]

theorem declares_iff : Declares files name ↔ (files.findSubject? (.type name)).isSome := by
  rw [findSubject?_isSome]
  simp only [isDeclaredBy_type]
  rfl

/-- What is found in a list is before all else that could be found. -/
theorem before_of_find? {α : Type} {R : α → α → Prop} {as : List α} {a : α} {p : α → Bool} (h : as.Pairwise R)
    (hfind : as.find? p = some a) {b : α} (hb : b ∈ as) (hpb : p b) : a = b ∨ R a b := by
  obtain ⟨-, before, behind, rfl, hnone⟩ := List.find?_eq_some_iff_append.mp hfind
  rw [List.pairwise_append, List.pairwise_cons] at h
  rcases List.mem_append.mp hb with hb | hb
  · have hnot := hnone b hb
    rw [hpb] at hnot
    cases hnot
  · exact (List.mem_cons.mp hb).imp Eq.symm (h.2.1.1 b)

theorem IsFirst.of_find? (h : Ordered files) (hfind : files.findSubject? (.type name) = some m) :
    IsFirst files name m := by
  obtain ⟨hfile, hdeclaration, hdeclares⟩ := Package.mem_of_findSubject? hfind
  refine ⟨hfile, hdeclaration, isDeclaredBy_type.mp hdeclares, fun f hf d hd hname => ?_⟩
  obtain ⟨before, g, behind, rfl, hg, hnone⟩ := List.findSome?_eq_some_iff.mp hfind
  obtain ⟨e, he, rfl⟩ := Option.map_eq_some_iff.mp hg
  have hnames := h.names
  rw [List.pairwise_append, List.pairwise_cons] at hnames
  rcases List.mem_append.mp hf with hf | hf
  · -- a file in front of the one found has no declaration of the type
    have hmiss := List.find?_eq_none.mp (Option.map_eq_none_iff.mp (hnone f hf)) d hd
    exact absurd (isDeclaredBy_type.mpr hname) hmiss
  · rcases List.mem_cons.mp hf with rfl | hf
    · exact .inr ⟨rfl, before_of_find? (h.declarations f hfile) he hd (isDeclaredBy_type.mpr hname)⟩
    · exact .inl (hnames.2.1.1 f hf)

/-- A search by name gives the first declaration. -/
theorem Ordered.isFirst_iff (h : Ordered files) : files.findSubject? (.type name) = some m ↔ IsFirst files name m := by
  refine ⟨.of_find? h, fun hm => ?_⟩
  obtain ⟨m', hm'⟩ := Option.isSome_iff_exists.mp (declares_iff.mp ⟨_, hm.file, _, hm.declaration, hm.declares⟩)
  rw [hm', hm.unique (.of_find? h hm')]

/-! ## Names in order -/

theorem mem_typeNames : name ∈ files.typeNames ↔ Declares files name := by
  unfold typeNames Declares
  simp only [List.mem_mergeSort, List.mem_eraseDups, List.mem_flatMap]

theorem find?_typeNames {p : String → Bool} :
    files.typeNames.find? p = some name ↔ IsLeast {n | Declares files n ∧ p n} name := by
  have hleast : ∀ n, files.typeNames.find? p = some n → IsLeast {n | Declares files n ∧ p n} n := by
    intro n hn
    refine ⟨⟨mem_typeNames.mp (List.mem_of_find?_eq_some hn), List.find?_some hn⟩, fun k hk => ?_⟩
    rcases before_of_find? (pairwise_mergeSort_names _) hn (mem_typeNames.mpr hk.1) hk.2 with rfl | hle
    · exact String.le_refl _
    · exact hle
  refine ⟨hleast name, fun h => ?_⟩
  cases hfind : files.typeNames.find? p with
  | none => exact absurd h.1.2 (List.find?_eq_none.mp hfind name (mem_typeNames.mpr h.1.1))
  | some n =>
    have hn := hleast n hfind
    rw [String.le_antisymm (hn.2 h.1) (h.2 hn.1)]

theorem find?_typeNames_eq_none {p : String → Bool} :
    files.typeNames.find? p = none ↔ ∀ n, Declares files n → ¬ p n := by
  simp only [List.find?_eq_none, mem_typeNames]

/-- The name that a loose search settles on: the least of those that match at the first level that has one, which
are the name itself, names equal to it in lower case, and names of that spelling. -/
inductive Picks (files : Members) (separator wanted name : String) : Prop
  | exact : IsLeast {n | Declares files n ∧ n = wanted} name → Picks files separator wanted name
  | ignoringCase : (∀ n, Declares files n → n ≠ wanted) →
      IsLeast {n | Declares files n ∧ Text.lower n = Text.lower wanted} name → Picks files separator wanted name
  | spelled : (∀ n, Declares files n → n ≠ wanted) → (∀ n, Declares files n → Text.lower n ≠ Text.lower wanted) →
      IsLeast {n | Declares files n ∧ TypeName.spell n separator = Text.lower wanted} name →
      Picks files separator wanted name

/-- Whether no type matches at any level. -/
def Misses (files : Members) (separator wanted : String) : Prop :=
  ∀ n, Declares files n → n ≠ wanted ∧ Text.lower n ≠ Text.lower wanted ∧
    TypeName.spell n separator ≠ Text.lower wanted

/-- The first type that matches at one level or another. -/
def pick? (files : Members) (separator wanted : String) : Option String :=
  (Package.levels separator wanted).findSome? (files.typeNames.find? ·)

theorem Picks.unique {name' : String} (h : Picks files separator wanted name) (h' : Picks files separator wanted name') :
    name = name' := by
  have hleast : ∀ {p : String → Prop}, IsLeast {n | Declares files n ∧ p n} name →
      IsLeast {n | Declares files n ∧ p n} name' → name = name' := fun h h' =>
    String.le_antisymm (h.2 h'.1) (h'.2 h.1)
  cases h with
  | exact h =>
    cases h' with
    | exact h' => exact hleast h h'
    | ignoringCase hnone _ | spelled hnone _ _ => exact absurd h.1.2 (hnone name h.1.1)
  | ignoringCase hnone h =>
    cases h' with
    | exact h' => exact absurd h'.1.2 (hnone name' h'.1.1)
    | ignoringCase _ h' => exact hleast h h'
    | spelled _ hnone' _ => exact absurd h.1.2 (hnone' name h.1.1)
  | spelled hnone hnone' h =>
    cases h' with
    | exact h' => exact absurd h'.1.2 (hnone name' h'.1.1)
    | ignoringCase _ h' => exact absurd h'.1.2 (hnone' name' h'.1.1)
    | spelled _ _ h' => exact hleast h h'

theorem Picks.declares (h : Picks files separator wanted name) : Declares files name := by
  cases h with
  | exact h | ignoringCase _ h | spelled _ _ h => exact h.1.1

/-- A type of the name sought is picked. -/
theorem pick?_of_declares (h : Declares files wanted) : files.pick? separator wanted = some wanted := by
  have hfind : files.typeNames.find? (· = wanted) = some wanted :=
    find?_typeNames.mpr ⟨⟨h, decide_eq_true rfl⟩, fun n hn => of_decide_eq_true hn.2 ▸ String.le_refl n⟩
  rw [pick?, Package.levels, List.findSome?_cons, hfind]

theorem Picks.not_misses (h : Picks files separator wanted name) : ¬ Misses files separator wanted := by
  intro hmisses
  cases h with
  | exact h => exact (hmisses name h.1.1).1 h.1.2
  | ignoringCase _ h => exact (hmisses name h.1.1).2.1 h.1.2
  | spelled _ _ h => exact (hmisses name h.1.1).2.2 h.1.2

/-- The levels are gone through one by one. -/
theorem picks_or_misses (files : Members) (separator wanted : String) :
    (∃ name, files.pick? separator wanted = some name ∧ Picks files separator wanted name) ∨
      files.pick? separator wanted = none ∧ Misses files separator wanted := by
  unfold pick? Package.levels
  rw [List.findSome?_cons, List.findSome?_cons, List.findSome?_singleton]
  cases hexact : files.typeNames.find? (· = wanted) with
  | some n =>
    simp only [find?_typeNames, decide_eq_true_eq] at hexact
    exact .inl ⟨n, rfl, .exact hexact⟩
  | none =>
    simp only [find?_typeNames_eq_none, decide_eq_true_eq] at hexact
    cases hcase : files.typeNames.find? (Text.lower · = Text.lower wanted) with
    | some n =>
      simp only [find?_typeNames, decide_eq_true_eq] at hcase
      exact .inl ⟨n, rfl, .ignoringCase hexact hcase⟩
    | none =>
      simp only [find?_typeNames_eq_none, decide_eq_true_eq] at hcase
      cases hspelled : files.typeNames.find? (TypeName.spell · separator = Text.lower wanted) with
      | some n =>
        simp only [find?_typeNames, decide_eq_true_eq] at hspelled
        exact .inl ⟨n, rfl, .spelled hexact hcase hspelled⟩
      | none =>
        simp only [find?_typeNames_eq_none, decide_eq_true_eq] at hspelled
        exact .inr ⟨rfl, fun n hn => ⟨hexact n hn, hcase n hn, hspelled n hn⟩⟩

end Members

namespace Package

variable {p q : Package} {search : String}

/-! ## Searches in loaded packages -/

theorem Loaded.ordered (h : Loaded p q) : q.files.Ordered := by
  refine ⟨fun f hf => ?_, ?_⟩
  · obtain ⟨hpairwise, hplaced⟩ := parse_wellPlaced (h.files f hf).2
    refine hpairwise.imp_of_mem fun {d e} hd he hde => ?_
    have := (hplaced d hd).start_lt
    have := (hplaced e he).splice_le
    omega
  · obtain ⟨written, given, -, -, hnames⟩ := h.names_eq
    exact List.pairwise_map.mp (hnames ▸ pairwise_sortedNames _)

theorem Loaded.isNameText_of_declares (h : Loaded p q) {name : String} (hname : q.files.Declares name) :
    IsNameText name.toList := by
  obtain ⟨f, hf, d, hd, hmem⟩ := hname
  obtain ⟨s, hs⟩ := parse_eq_ok_iff.mp (h.files f hf).2
  cases htype : d.declared with
  | type names =>
    rw [htype] at hmem
    exact hs.isNameText_of_type hd htype name hmem
  | _ =>
    rw [htype] at hmem
    cases hmem

/-- No type has a name that a search text would lose its end of. -/
theorem Loaded.searchName_of_declares (h : Loaded p q) (hname : q.files.Declares search) : searchName search = search := by
  refine if_neg fun hsource => ?_
  have hdot : '.' ∈ search.toList := by
    obtain ⟨before, hbefore⟩ := List.isSuffixOf_iff_suffix.mp hsource
    rw [← hbefore]
    exact List.mem_append_right _ List.mem_cons_self
  exact absurd ((h.isNameText_of_declares hname).all '.' hdot) (by decide)

theorem searchName_append (name : String) : searchName (name ++ ".go") = name := by
  have htext : (name ++ ".go").toList = name.toList ++ sourceSuffix := String.toList_append
  have hsource : isSourceName (name ++ ".go") := by
    rw [isSourceName, htext]
    exact List.isSuffixOf_iff_suffix.mpr (List.suffix_append _ _)
  rw [searchName, if_pos hsource, htext, List.length_append, Nat.add_sub_cancel, List.take_left, String.ofList_toList]

theorem typeInfo?_eq_some {name : String} {info : TypeInfo} : q.typeInfo? name = some info ↔
    info.name = name ∧ q.files.findSubject? (.type name) = some info.found := by
  unfold typeInfo?
  rw [Option.map_eq_some_iff]
  constructor
  · rintro ⟨m, hm, rfl⟩
    exact ⟨rfl, hm⟩
  · rintro ⟨rfl, hfound⟩
    exact ⟨info.found, hfound, rfl⟩

theorem findType_of_load (h : load p = (.ok (), q)) (search : String) : findType search p =
    match q.typeInfo? search with
    | some info => (.ok info, q)
    | none => (.error (.notFound search (Similar.suggestions search q.files.typeNames)), q) := by
  rw [findType, bind_apply, h]
  dsimp only
  rw [bind_apply, get_apply]
  dsimp only
  cases q.typeInfo? search <;> rfl

theorem findTypeLoose_of_load (h : load p = (.ok (), q)) (search : String) : findTypeLoose search p =
    match q.files.pick? q.settings.separator (searchName search) with
    | some name =>
      match q.typeInfo? name with
      | some info => (.ok info, q)
      | none => (.error (.notFound search []), q)
    | none => (.error (.notFound search (Similar.suggestions (searchName search) q.files.typeNames)), q) := by
  rw [findTypeLoose, bind_apply, h]
  dsimp only
  rw [bind_apply, get_apply]
  dsimp only
  rw [← Members.pick?]
  cases q.files.pick? q.settings.separator (searchName search) with
  | none => rfl
  | some name =>
    dsimp only
    cases q.typeInfo? name <;> rfl

theorem Loaded.typeInfo?_of_declares (h : Loaded p q) {name : String} (hname : q.files.Declares name) :
    ∃ m, q.typeInfo? name = some ⟨name, m⟩ ∧ q.files.IsFirst name m := by
  obtain ⟨m, hm⟩ := Option.isSome_iff_exists.mp (Members.declares_iff.mp hname)
  exact ⟨m, typeInfo?_eq_some.mpr ⟨rfl, hm⟩, .of_find? h.ordered hm⟩

theorem findTypeLoose_of_picks (h : load p = (.ok (), q)) {name : String}
    (hpick : q.files.pick? q.settings.separator (searchName search) = some name) (hname : q.files.Declares name) :
    ∃ m, findTypeLoose search p = (.ok ⟨name, m⟩, q) ∧ q.files.IsFirst name m := by
  obtain ⟨m, hinfo, hfirst⟩ := (load_eq_ok h).typeInfo?_of_declares hname
  refine ⟨m, ?_, hfirst⟩
  rw [findTypeLoose_of_load h, hpick]
  dsimp only
  rw [hinfo]

/-- A loose search finds the type that it settles on, or none matches. -/
theorem findTypeLoose_cases (h : load p = (.ok (), q)) (search : String) :
    (∃ info, findTypeLoose search p = (.ok info, q) ∧
      q.files.Picks q.settings.separator (searchName search) info.name ∧ q.files.IsFirst info.name info.found) ∨
    findTypeLoose search p =
        (.error (.notFound search (Similar.suggestions (searchName search) q.files.typeNames)), q) ∧
      q.files.Misses q.settings.separator (searchName search) := by
  rcases Members.picks_or_misses q.files q.settings.separator (searchName search) with
    ⟨name, hpick, hpicks⟩ | ⟨hnone, hmisses⟩
  · obtain ⟨m, hrun, hfirst⟩ := findTypeLoose_of_picks h hpick hpicks.declares
    exact .inl ⟨⟨name, m⟩, hrun, hpicks, hfirst⟩
  · refine .inr ⟨?_, hmisses⟩
    rw [findTypeLoose_of_load h, hnone]

/-- What an exact search finds, a loose one does. -/
theorem findTypeLoose_of_findType (h : load p = (.ok (), q)) {info : TypeInfo} {r : Package}
    (hfind : findType search p = (.ok info, r)) : findTypeLoose search p = (.ok info, r) := by
  rw [findType_of_load h] at hfind
  split at hfind
  · next info' hinfo =>
    cases hfind
    obtain ⟨hname, hfound⟩ := typeInfo?_eq_some.mp hinfo
    have hdeclares : q.files.Declares search := Members.declares_iff.mpr (hfound ▸ rfl)
    have hpick : q.files.pick? q.settings.separator (searchName search) = some search := by
      rw [(load_eq_ok h).searchName_of_declares hdeclares]
      exact Members.pick?_of_declares hdeclares
    rw [findTypeLoose_of_load h, hpick]
    dsimp only
    rw [hinfo]
  · cases hfind

/-- Exact and loose searches for types in a package that loads.  A loose search finds what an exact one finds, gives
the first declaration of the name it settles on, fails if and only if no type matches, and finds every type by its
spelling. -/
theorem findTypeLoose_complete (h : load p = (.ok (), q)) :
    (∀ search info r, findType search p = (.ok info, r) → findTypeLoose search p = (.ok info, r)) ∧
    (∀ search info, findTypeLoose search p = (.ok info, q) ↔
      q.files.Picks q.settings.separator (searchName search) info.name ∧ q.files.IsFirst info.name info.found) ∧
    (∀ search, findTypeLoose search p =
        (.error (.notFound search (Similar.suggestions (searchName search) q.files.typeNames)), q) ↔
      q.files.Misses q.settings.separator (searchName search)) ∧
    (∀ search, (∃ info, findTypeLoose search p = (.ok info, q)) ∨ findTypeLoose search p =
      (.error (.notFound search (Similar.suggestions (searchName search) q.files.typeNames)), q)) ∧
    (∀ name ∈ q.files.typeNames, (q.typeInfo? name).isSome) ∧
    (Text.lower q.settings.separator = q.settings.separator → ∀ name, q.files.Declares name →
      ∃ info, findTypeLoose (TypeName.spell name q.settings.separator ++ ".go") p = (.ok info, q)) := by
  have hcases := findTypeLoose_cases h
  refine ⟨fun _ _ _ => findTypeLoose_of_findType h, fun search info => ⟨fun hrun => ?_, fun ⟨hpicks, hfirst⟩ => ?_⟩,
    fun search => ⟨fun hrun => ?_, fun hmisses => ?_⟩, fun search => ?_, fun name hname => ?_, fun hseparator name hname => ?_⟩
  · rcases hcases search with ⟨info', hrun', hinfo⟩ | ⟨hrun', -⟩
    · rw [hrun] at hrun'
      cases hrun'
      exact hinfo
    · rw [hrun] at hrun'
      cases hrun'
  · rcases hcases search with ⟨⟨name, m⟩, hrun, hpicks', hfirst'⟩ | ⟨-, hmisses⟩
    · obtain ⟨name', m'⟩ := info
      obtain rfl := hpicks.unique hpicks'
      obtain rfl := hfirst.unique hfirst'
      exact hrun
    · exact absurd hmisses hpicks.not_misses
  · rcases hcases search with ⟨info, hrun', -⟩ | ⟨-, hmisses⟩
    · rw [hrun] at hrun'
      cases hrun'
    · exact hmisses
  · rcases hcases search with ⟨info, -, hpicks, -⟩ | ⟨hrun, -⟩
    · exact absurd hmisses hpicks.not_misses
    · exact hrun
  · exact (hcases search).imp (fun ⟨info, hrun, _⟩ => ⟨info, hrun⟩) And.left
  · obtain ⟨m, hinfo, -⟩ := (load_eq_ok h).typeInfo?_of_declares (Members.mem_typeNames.mp hname)
    rw [hinfo]
    rfl
  · rcases hcases (TypeName.spell name q.settings.separator ++ ".go") with ⟨info, hrun, -⟩ | ⟨-, hmisses⟩
    · exact ⟨info, hrun⟩
    · refine absurd (Eq.symm ?_) (hmisses name hname).2.2
      rw [searchName_append, TypeName.lower_spell hseparator]

/-- A client and a server, the client found by its spelling. -/
def clientText : String := "package a

type (
	Server struct{}
	HTTPClient int
)
"

theorem clientText_found : ∃ q, load (oneFile clientText) = (.ok (), q) ∧
    Text.lower q.settings.separator = q.settings.separator ∧ q.files.Declares "HTTPClient" ∧
    ∃ info, findTypeLoose "http-client.go" (oneFile clientText) = (.ok info, q) := by
  have hload := eq_ok_of_isOk (show (load (oneFile clientText)).1.isOk by decide +kernel)
  have hseparator : Text.lower (load (oneFile clientText)).2.settings.separator =
      (load (oneFile clientText)).2.settings.separator := by decide +kernel
  have hdeclares : (load (oneFile clientText)).2.files.Declares "HTTPClient" :=
    Members.declares_iff.mpr (by decide +kernel)
  refine ⟨_, hload, hseparator, hdeclares, ?_⟩
  obtain ⟨-, -, -, -, -, hspelled⟩ := findTypeLoose_complete hload
  have hsearch : TypeName.spell "HTTPClient" (load (oneFile clientText)).2.settings.separator ++ ".go" =
      "http-client.go" := by decide +kernel
  exact hsearch ▸ hspelled hseparator "HTTPClient" hdeclares

end Package

end GoSplice
