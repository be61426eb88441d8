import GoSplice.Proofs.Snippets
import GoSplice.Proofs.Spellings

/-!
# Packages that stay valid

A package that begins without files and is changed by snippets whose items end
with their lines, and by passes over repeated imports, is valid after each
change, whether it succeeded or not: it can be loaded, its files end their last
lines and have its name, and no function or type is declared twice.

    Consists name p parts → t.IsWhole →
      Consists name (applyTransform t p).2 parts'                       (Consists.applyTransform)
    all t ∈ ts are regular → load (afterAll ts p) = (ok (), q), q.IsValid     (afterAll_isValid)
-/

namespace GoSplice

open Syntax GoSplice.Part

namespace Package

variable {p q : Package} {name : List Char} {parts : String → List Part}

/-! ## Runs -/

/-- A transform changes the package that was loaded before it. -/
theorem applyTransform_of_load {t : Transform} (h : load p = (.ok (), q)) :
    applyTransform t p = applyLoaded t q := by
  unfold applyTransform
  rw [bind_apply, h]

/-- A whole transform leaves a package made of parts, whether it fails or not. -/
theorem Consists.applyTransform (h : Consists name p parts) (hn : IsNameText name)
    (hname : isName name) {t : Transform} (ht : t.IsWhole) :
    ∃ parts', Consists name (Package.applyTransform t p).2 parts' := by
  obtain ⟨q, hload, hq⟩ := h.load hn hname
  rw [applyTransform_of_load hload]
  cases ht with
  | add hfile hg htext hsubject => exact hq.addDeclaration hfile hg htext hsubject
  | addImport hfile hlocal hpath => exact hq.addImport hn.toIsWordText hfile hlocal hpath
  | dedupImports filenames => exact hq.dedupImports filenames

/-- The package behind some transforms, each applied even if those before it failed. -/
def afterAll (ts : List Transform) (p : Package) : Package :=
  ts.foldl (fun q t => (applyTransform t q).2) p

theorem Consists.afterAll (h : Consists name p parts) (hn : IsNameText name) (hname : isName name)
    {ts : List Transform} (hts : ∀ t ∈ ts, t.IsWhole) :
    ∃ parts', Consists name (Package.afterAll ts p) parts' := by
  induction ts generalizing p parts with
  | nil => exact ⟨parts, h⟩
  | cons t ts ih =>
    obtain ⟨ht, hts⟩ := List.forall_mem_cons.mp hts
    obtain ⟨parts', h'⟩ := h.applyTransform hn hname ht
    exact ih h' hts

/-! ## Valid packages -/

/-- The declarations of all files. -/
def declarations (p : Package) : List Declaration := p.files.flatMap (·.declarations)

/-- A loaded package that is well-formed as a whole. -/
structure IsValid (p : Package) : Prop where
  lineEnd : ∀ f ∈ p.files, f.source.getLast? = some LineIndex.lineFeed
  clause : ∀ f ∈ p.files, f.clauseCount = 1 ∧ f.packageName = p.localName
  func : ∀ receiver name,
    p.declarations.countP (fun d => (Subject.func receiver name).isDeclaredBy d.declared) ≤ 1
  type : ∀ name, p.declarations.countP (fun d => (Subject.type name).isDeclaredBy d.declared) ≤ 1

/-- What some declarations declare that can be declared but once. -/
def identitiesOf (ds : List Declaration) : List Subject := ds.flatMap (·.declared.identities)

theorem countP_le_count {ds : List Declaration} {s : Subject}
    (h : ∀ d ∈ ds, s.isDeclaredBy d.declared → s ∈ d.declared.identities) :
    ds.countP (fun d => s.isDeclaredBy d.declared) ≤ (identitiesOf ds).count s := by
  induction ds with
  | nil => exact Nat.le_refl 0
  | cons d ds ih =>
    obtain ⟨hd, hds⟩ := List.forall_mem_cons.mp h
    have hrest := ih hds
    rw [List.countP_cons]
    show _ ≤ (d.declared.identities ++ identitiesOf ds).count s
    rw [List.count_append]
    split
    · next hdecl =>
      have := List.count_pos_iff.mpr (hd hdecl)
      omega
    · omega

theorem identities_spread (ps : List Part) (o : Nat) :
    identitiesOf (spread Part.declarations o ps) = allIdentities ps := by
  induction ps generalizing o with
  | nil => rfl
  | cons b ps ih =>
    show identitiesOf (b.declarations o ++ _) = b.identities ++ allIdentities ps
    unfold identitiesOf at ih ⊢
    rw [List.flatMap_append, ih]
    congr 1
    cases b with
    | blank => rfl
    | paragraph g =>
      show ((g.declared.moved _).identities ++ []) = g.declared.identities
      rw [List.append_nil, Declared.identities_moved]

/-- No two declarations of a package made of parts have an identity in common. -/
theorem Opened.nodup_identities (h : Opened name q parts) : (identitiesOf q.declarations).Nodup := by
  have hall : ∀ fs : List SourceFile, (∀ f ∈ fs, f ∈ q.files) → (fs.map (·.filename)).Nodup →
      (identitiesOf (fs.flatMap (·.declarations))).Nodup := by
    intro fs
    induction fs with
    | nil => exact fun _ _ => .nil
    | cons f fs ih =>
      intro hfs hnodup
      obtain ⟨hf, hfs⟩ := List.forall_mem_cons.mp hfs
      rw [List.map_cons, List.nodup_cons] at hnodup
      obtain ⟨x, hfile, hx, he⟩ := h.files f hf
      have hids : ∀ g ∈ q.files, ∀ y, q.path g.filename = .ok y →
          identitiesOf g.declarations = allIdentities (parts y) := by
        intro g hg y hy
        obtain ⟨z, -, hz, hge⟩ := h.files g hg
        rw [hy, Except.ok.injEq] at hz
        rw [hge, hz]
        exact identities_spread _ _
      rw [List.flatMap_cons]
      unfold identitiesOf
      rw [List.flatMap_append]
      show (identitiesOf _ ++ identitiesOf _).Nodup
      rw [List.nodup_append, hids f hf x hx]
      refine ⟨h.nodup x, ih hfs hnodup.2, ?_⟩
      rintro s hs t ht rfl
      obtain ⟨d, hd, hsd⟩ := List.mem_flatMap.mp ht
      obtain ⟨g, hg, hdg⟩ := List.mem_flatMap.mp hd
      obtain ⟨y, hgfile, hy, -⟩ := h.files g (hfs g hg)
      have hs' : s ∈ allIdentities (parts y) := by
        rw [← hids g (hfs g hg) y hy]
        exact List.mem_flatMap.mpr ⟨d, hdg, hsd⟩
      obtain rfl := h.disjoint x y s hs hs'
      have hsame := h.inMemory.path_injective hgfile hfile hy hx
      exact hnodup.1 (hsame ▸ List.mem_map_of_mem hg)
  exact hall q.files (fun _ hf => hf) h.nodupFiles

/-- A package made of parts is valid when it is loaded. -/
theorem Opened.isValid (h : Opened name q parts) (hn : IsNameText name) : q.IsValid := by
  have hnodup := h.nodup_identities
  refine ⟨fun f hf => ?_, fun f hf => ?_, fun receiver n => ?_, fun n => ?_⟩
  · obtain ⟨x, -, -, he⟩ := h.files f hf
    have hscan := fileScan hn fun b hb => (h.single x b hb).isWhole
    rw [he]
    show (Utf8.encode _).getLast? = _
    obtain ⟨t, ht⟩ := List.getLast?_eq_some_iff.mp hscan.lineEnd
    rw [ht, Utf8.encode_append]
    exact List.getLast?_concat
  · obtain ⟨x, -, -, he⟩ := h.files f hf
    rw [he, h.localName]
    exact ⟨rfl, rfl⟩
  · refine Nat.le_trans (countP_le_count fun d _ hd => ?_) (List.nodup_iff_count.mp hnodup _)
    exact mem_of_isDeclaredBy (e := .func n receiver true) (List.mem_singleton.mpr rfl) hd
  · refine Nat.le_trans (countP_le_count fun d _ hd => ?_) (List.nodup_iff_count.mp hnodup _)
    exact mem_of_isDeclaredBy (e := .type [n]) (List.mem_singleton.mpr rfl) hd

/-! ## From no files on -/

theorem isLetter_of_isNameStart {c : Char} (h : isNameStart c) : Text.isLetter c := by
  unfold isNameStart at h
  rw [Bool.or_eq_true, decide_eq_true_eq] at h
  rcases h with h | rfl
  · unfold Text.isLetter
    rw [if_pos (Text.toNat_lt_of_isAlphanum (Or.inl h)), h, Bool.true_or]
  · decide

theorem isWordChar_of_isDigit {c : Char} (h : c.isDigit) : Text.isWordChar c := by
  unfold Text.isWordChar Text.isDigit
  rw [if_pos (Text.toNat_lt_of_isAlphanum (Or.inr h)), h, Bool.or_true]

/-- A letter or underscore, and then letters, digits and underscores, are a word. -/
theorem isWordText_of_isNameStart {c : Char} {r : List Char} (hc : isNameStart c)
    (hr : ∀ d ∈ r, isNameStart d ∨ d.isDigit) : IsWordText (c :: r) := by
  have hc := isLetter_of_isNameStart hc
  refine ⟨⟨c, r, rfl, hc⟩, List.forall_mem_cons.mpr ⟨by simp [Text.isWordChar, hc], fun d hd => ?_⟩⟩
  rcases hr d hd with hd | hd
  · simp [Text.isWordChar, isLetter_of_isNameStart hd]
  · exact isWordChar_of_isDigit hd

/-- A name of a package is such a word, and a line end may follow it. -/
theorem exists_word_of_isName {s : List Char} (h : Package.isName s) : ∃ c r, isNameStart c ∧
    (∀ d ∈ r, isNameStart d ∨ d.isDigit) ∧ (s = c :: r ∨ s = c :: r ++ ['\n']) := by
  cases s with
  | nil => cases h
  | cons c s =>
    simp only [Package.isName, Bool.and_eq_true, Bool.or_eq_true, decide_eq_true_eq, List.isEmpty_iff] at h
    obtain ⟨hc, htail⟩ := h
    have hsplit := List.takeWhile_append_dropWhile (p := fun d => isNameStart d || d.isDigit) (l := s)
    refine ⟨c, s.takeWhile fun d => isNameStart d || d.isDigit, hc, fun d hd => ?_, ?_⟩
    · exact (Bool.or_eq_true _ _).mp (mem_takeWhile hd)
    · refine htail.imp (fun htail => ?_) fun htail => ?_
      · rw [htail, List.append_nil] at hsplit
        exact congrArg _ hsplit.symm
      · rw [htail] at hsplit
        exact congrArg _ hsplit.symm

/-- An identifier of letters, digits and underscores that is no keyword. -/
structure IsIdentifier (s : List Char) : Prop where
  spelled : ∃ c r, s = c :: r ∧ isNameStart c ∧ ∀ d ∈ r, isNameStart d ∨ d.isDigit
  noKeyword : keywords.lookup (String.ofList s) = none

theorem IsIdentifier.isNameText (h : IsIdentifier name) : IsNameText name := by
  obtain ⟨⟨c, r, rfl, hc, hr⟩, hkeyword⟩ := h
  refine ⟨isWordText_of_isNameStart hc hr, ?_⟩
  unfold Kind.ofWord
  dsimp only
  rw [hkeyword]
  dsimp only
  split
  · simp
  · split <;> simp

theorem lookup_of_isNameText (h : IsNameText name) : keywords.lookup (String.ofList name) = none := by
  have hkind := h.kind
  unfold Kind.ofWord at hkind
  cases hlookup : keywords.lookup (String.ofList name) with
  | none => rfl
  | some k =>
    dsimp only at hkind
    rw [hlookup] at hkind
    simp at hkind

/-- A name of a package without a line end is an identifier if it can stand in a clause. -/
theorem isIdentifier_of_isName (hname : Package.isName name) (hline : name.getLast? ≠ some '\n')
    (h : IsNameText name) : IsIdentifier name := by
  obtain ⟨c, r, hc, hr, rfl | rfl⟩ := exists_word_of_isName hname
  · exact ⟨⟨c, r, rfl, hc, hr⟩, lookup_of_isNameText h⟩
  · exact absurd List.getLast?_concat hline

theorem IsIdentifier.isName (h : IsIdentifier name) : isName name := by
  obtain ⟨⟨c, r, rfl, hc, hr⟩, -⟩ := h
  have htail : r.dropWhile (fun d => isNameStart d || d.isDigit) = [] := by
    have happend := @List.dropWhile_append_of_pos _ (fun d => isNameStart d || d.isDigit) r []
      fun d hd => by simpa using hr d hd
    rwa [List.append_nil] at happend
  simp [Package.isName, hc, htail]

/-- A package without files is made of parts. -/
theorem Consists.of_create {layers : Layers} {modulePath directory : String} {settings : Settings}
    {formatter : Formatter} (hin : layers.input = .memory .empty) (hout : layers.output = .memory .empty)
    (h : create layers modulePath directory settings formatter = .ok p) :
    Consists p.nameOfPath.toList p fun _ => [.blank] := by
  have hbuilt : Layer.IsBuilt (.memory .empty) := MemoryLayer.Built.empty
  have hmemory := inMemory_of_create (hin ▸ hbuilt) ⟨_, hout, .empty⟩ h
  have hlayers : p.layers = layers := by
    obtain ⟨-, d, -, rfl⟩ := create_eq_ok h
    rfl
  have hnone : ∀ x, p.layers.file? x = none := by
    intro x
    rw [hlayers]
    unfold Layers.file?
    rw [hin, hout]
    rfl
  refine ⟨hmemory, String.ofList_toList.symm, fun x f hf => ?_, fun _ _ => rfl, fun _ => ?_, fun _ => .nil, ?_⟩
  · rw [hnone] at hf
    cases hf
  · exact List.forall_mem_singleton.mpr trivial
  · rintro _ _ _ ⟨⟩

/-! ## Regular runs -/

/-- The transforms of snippets whose items end with their lines, replacing or not, and passes
over repeated imports. -/
inductive IsRegular : Transform → Prop
  | parsed {filename text : String} {ts : List Transform} {t : Transform} :
      isSourceName filename → Separate (Snippet.header ++ text).toList →
      Snippet.parse filename text = .ok ts → t ∈ ts → t.HasPlainPath → IsRegular t
  | replacing {t : Transform} : IsRegular t → IsRegular t.replacing
  | dedupImports (filenames : Option (List String)) : IsRegular (.dedupImports filenames)

theorem IsRegular.isWhole {t : Transform} (h : IsRegular t) : t.IsWhole := by
  induction h with
  | parsed hname hsep hparse ht hpath => exact Snippet.isWhole_of_parse hparse hname hsep ht hpath
  | replacing _ ih => exact ih.replacing
  | dedupImports filenames => exact .dedupImports filenames

/-- A package that began without files is loaded as one made of parts after each regular transform. -/
theorem load_afterAll {layers : Layers} {modulePath directory : String} {settings : Settings}
    {formatter : Formatter} {ts : List Transform} (hin : layers.input = .memory .empty) (hout : layers.output = .memory .empty)
    (hp : create layers modulePath directory settings formatter = .ok p)
    (hname : IsIdentifier p.nameOfPath.toList) (hts : ∀ t ∈ ts, IsRegular t) :
    ∃ q parts, load (afterAll ts p) = (.ok (), q) ∧ Opened p.nameOfPath.toList q parts := by
  obtain ⟨parts, h⟩ := (Consists.of_create hin hout hp).afterAll hname.isNameText hname.isName
    fun t ht => (hts t ht).isWhole
  obtain ⟨q, hload, hq⟩ := h.load hname.isNameText hname.isName
  exact ⟨q, parts, hload, hq⟩

/-- A package that began without files is valid after each regular transform. -/
theorem afterAll_isValid {layers : Layers} {modulePath directory : String} {settings : Settings}
    {formatter : Formatter} (hin : layers.input = .memory .empty) (hout : layers.output = .memory .empty)
    (hp : create layers modulePath directory settings formatter = .ok p)
    (hname : IsIdentifier p.nameOfPath.toList) {ts : List Transform} (hts : ∀ t ∈ ts, IsRegular t) :
    ∃ q, load (afterAll ts p) = (.ok (), q) ∧ q.localName = p.nameOfPath ∧ q.IsValid := by
  obtain ⟨q, parts, hload, hq⟩ := load_afterAll hin hout hp hname hts
  exact ⟨q, hload, hq.localName.trans String.ofList_toList, hq.isValid hname.isNameText⟩

/-- An import and a function with a doc comment. -/
def printerSnippet : String := "import \"fmt\"\n\n// F prints.\nfunc F() \x7b fmt.Println() \x7d\n"

/-- The snippet for a file, once more for another one in the place of what is there, and a pass. -/
def printerRun : List Transform :=
  let function (filename : String) : Addition :=
    ⟨filename, .func "" "F", "// F prints.\nfunc F() \x7b fmt.Println() \x7d", false⟩
  [.addImport ⟨"a.go", "", "fmt"⟩, .add (function "a.go"), (Transform.add (function "b.go")).replacing,
    .dedupImports none]

theorem parse_printerSnippet (filename : String) :
    Snippet.parse filename printerSnippet = .ok [.addImport ⟨filename, "", "fmt"⟩,
      .add ⟨filename, .func "" "F", "// F prints.\nfunc F() \x7b fmt.Println() \x7d", false⟩] :=
  rfl

theorem printerRun_isRegular : ∀ t ∈ printerRun, IsRegular t := by
  have hsep : Separate (Snippet.header ++ printerSnippet).toList := ⟨by decide +kernel, by decide +kernel⟩
  have hpath : IsPlainText ['f', 'm', 't'] := by
    unfold IsPlainText
    simp
  unfold printerRun
  simp only [List.forall_mem_cons]
  refine ⟨.parsed ?_ hsep (parse_printerSnippet _) List.mem_cons_self hpath,
    .parsed ?_ hsep (parse_printerSnippet _) (List.mem_cons_of_mem _ List.mem_cons_self) trivial,
    .replacing (.parsed ?_ hsep (parse_printerSnippet _) (List.mem_cons_of_mem _ List.mem_cons_self) trivial),
    .dedupImports none, List.forall_mem_nil _⟩
  all_goals decide

theorem afterAll_printerRun : ∃ p, create (.overlay (.memory .empty) (.memory .empty)) "m" "d"
      .standard (fun _ _ => .missing) = .ok p ∧ IsIdentifier p.nameOfPath.toList ∧
    (∀ t ∈ printerRun, IsRegular t) ∧
    ∃ q, load (afterAll printerRun p) = (.ok (), q) ∧ q.localName = p.nameOfPath ∧ q.IsValid := by
  obtain ⟨p, hp, hname⟩ : ∃ p, create (.overlay (.memory .empty) (.memory .empty)) "m" "d"
      .standard (fun _ _ => .missing) = .ok p ∧ p.nameOfPath.toList = ['d'] :=
    ⟨_, rfl, by decide +kernel⟩
  have hidentifier : IsIdentifier p.nameOfPath.toList :=
    ⟨⟨'d', [], hname, by decide, List.forall_mem_nil _⟩, by rw [hname]; rfl⟩
  exact ⟨p, hp, hidentifier, printerRun_isRegular, afterAll_isValid rfl rfl hp hidentifier printerRun_isRegular⟩

end Package

end GoSplice
