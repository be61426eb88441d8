import GoSplice.Proofs.JsonTexts
import GoSplice.Session

/-!
# Transform lists survive their texts

A list of transforms is the same list once it was written as JSON and read again, whatever its
strings hold.  So a list that a snippet was turned into does what the snippet does:

    listOfBytes (bytesOf (text l (listToJson ts))) = .valid ts                  (listOfBytes_text)
    transforms s = text  →  apply (text, as a list) = apply s                   (Session.apply_printed)
-/

namespace GoSplice

open Json (Value Layout Nests depthLimit)

/-! ## Checks of what was written -/

namespace Checked

/-- Items are checked one by one. -/
theorem each_map {check : Nat → β → Checked α} {f : α → β} (h : ∀ i a, check i (f a) = .valid a) (i : Nat) (as : List α) :
    each check i (as.map f) = .valid as := by
  induction as generalizing i with
  | nil => rfl
  | cons a as ih =>
    rw [List.map_cons, each, h, ih]
    rfl

theorem strings_stringsValue (path : List Step) (ss : List String) :
    strings path (Transform.stringsValue ss) = .valid ss :=
  each_map (f := Value.string) (fun _ _ => rfl) 0 ss

theorem optionalStrings_listValue (path : List Step) (ss : Option (List String)) :
    optionalStrings path (Transform.listValue ss) = .valid ss := by
  cases ss with
  | none => rfl
  | some ss =>
    show some <$> strings path (Transform.stringsValue ss) = _
    rw [strings_stringsValue]
    rfl

end Checked

namespace Transform

theorem filenamesOfMembers_listValue (kind : Value) (filenames : Option (List String)) (path : List Step) :
    filenamesOfMembers [("kind", kind), ("filename_list", listValue filenames)] path = .valid filenames :=
  Checked.optionalStrings_listValue _ filenames

/-- The other members of a declaration are read as they were written. -/
theorem additionOfMembers_members (a : Addition) (kind : Value) (path : List Step) {subject : Checked Subject}
    (h : subject = .valid a.subject) :
    additionOfMembers (("kind", kind) :: (Transform.add a).members) path subject = .valid (.add a) := by
  obtain ⟨filename, declared, text, replace⟩ := a
  subst h
  cases declared <;> rfl

theorem namesOfMembers_members (filename text : String) (kind : ValueKind) (names : List String) (replace : Bool)
    (tag : Value) (path : List Step) :
    Checked.required (("kind", tag) :: (Transform.add ⟨filename, .value kind names, text, replace⟩).members) path "name_list"
      Checked.strings = .valid names :=
  Checked.strings_stringsValue _ names

/-- Each transform is what its object is read as. -/
theorem ofJson_toJson (path : List Step) (t : Transform) : ofJson path t.toJson = .valid t := by
  cases t with
  | addImport a => rfl
  | add a =>
    obtain ⟨filename, subject, text, replace⟩ := a
    cases subject with
    | func receiver name => exact additionOfMembers_members _ (.string "add_func") _ rfl
    | type name => exact additionOfMembers_members _ (.string "add_type") _ rfl
    | value kind names =>
      have hnames := namesOfMembers_members filename text kind names replace
      cases kind with
      | const =>
        exact additionOfMembers_members _ (.string "add_const") _ (congrArg (Subject.value .const <$> ·) (hnames _ _))
      | var =>
        exact additionOfMembers_members _ (.string "add_var") _ (congrArg (Subject.value .var <$> ·) (hnames _ _))
  | dedupImports filenames =>
    exact congrArg (dedupImports <$> ·) (filenamesOfMembers_listValue (.string "dedup_imports") filenames _)
  | format filenames =>
    exact congrArg (format <$> ·) (filenamesOfMembers_listValue (.string "format") filenames _)

theorem listOfJson_listToJson (ts : List Transform) : listOfJson (listToJson ts) = .valid ts :=
  Checked.each_map (fun i t => ofJson_toJson [.index i] t) 0 ts

/-! ## Texts of lists -/

theorem nests_stringsValue (depth : Nat) (ss : List String) : Nests (depth + 1) (stringsValue ss) := by
  refine .array fun v hv => ?_
  obtain ⟨s, -, rfl⟩ := List.mem_map.mp hv
  exact .string

theorem nests_listValue (depth : Nat) (filenames : Option (List String)) : Nests (depth + 1) (listValue filenames) := by
  cases filenames with
  | none => exact .null
  | some ss => exact nests_stringsValue depth ss

theorem nests_toJson (depth : Nat) (t : Transform) : Nests (depth + 2) t.toJson := by
  refine .object (List.forall_mem_cons.mpr ⟨.string, ?_⟩)
  cases t with
  | addImport a => simp [members, Nests.string]
  | add a =>
    obtain ⟨filename, subject, text, replace⟩ := a
    cases subject <;> simp [members, subjectMembers, Nests.string, Nests.bool, nests_stringsValue]
  | dedupImports filenames => exact List.forall_mem_singleton.mpr (nests_listValue depth filenames)
  | format filenames => exact List.forall_mem_singleton.mpr (nests_listValue depth filenames)

theorem nests_listToJson (ts : List Transform) : Nests depthLimit (listToJson ts) := by
  show Nests (197 + 3) _
  refine .array fun v hv => ?_
  obtain ⟨t, -, rfl⟩ := List.mem_map.mp hv
  exact nests_toJson 197 t

/-- A list is read back from its text in either layout, with space behind it or without. -/
theorem listOfBytes_text (l : Layout) (ts : List Transform) {space : String} (hspace : Json.IsSpaces space.toList) :
    listOfBytes (bytesOf (Json.text l (listToJson ts) ++ space)) = .valid ts := by
  rw [listOfBytes, Json.read?_text (nests_listToJson ts) l hspace]
  exact listOfJson_listToJson ts

end Transform

/-! ## Sessions -/

namespace Session

theorem isSpaces_lineFeed : Json.IsSpaces "\n".toList := by
  intro c hc
  obtain rfl := List.mem_singleton.mp hc
  rfl

/-- What is printed of a snippet is a list of its transforms. -/
theorem transforms_eq_ok {w : Session} {s : Source} {file : Option String} (h : (w.transforms s file).status = 0) :
    ∃ ts, snippetTransforms s file false = .ok ts ∧
      (w.transforms s file).output = Json.text .indented (Transform.listToJson ts) ++ "\n" := by
  unfold transforms at h ⊢
  cases hts : snippetTransforms s file false with
  | ok ts => exact ⟨ts, rfl, rfl⟩
  | error e =>
    rw [hts] at h
    unfold failWith at h
    dsimp only at h
    split at h <;> cases h

theorem mapM_replace {ε : Type u} {f : α → Except ε β} {a b : α} (h : f a = f b) (before after : List α) :
    (before ++ a :: after).mapM f = (before ++ b :: after).mapM f := by
  rw [List.mapM_append, List.mapM_append, List.mapM_cons, List.mapM_cons, h]

/-- Sources with the same transforms do the same. -/
theorem apply_replace {o : ApplyOptions} {s t : Source}
    (h : sourceTransforms s o.file o.replace = sourceTransforms t o.file o.replace) (w : Session)
    (before after : List Source) : w.apply (before ++ s :: after) o = w.apply (before ++ t :: after) o := by
  unfold apply allTransforms
  rw [mapM_replace h before after]

/-- A printed list does what the snippet does that it was printed of, in any session and among any other sources. -/
theorem apply_printed {w : Session} {s : Source} {file : Option String} (h : (w.transforms s file).status = 0)
    (hs : isList s.path = false) {path : String} (hpath : isList path = true) {o : ApplyOptions} (hfile : o.file = file)
    (hreplace : o.replace = false) (w' : Session) (before after : List Source) :
    w'.apply (before ++ ⟨path, bytesOf (w.transforms s file).output⟩ :: after) o = w'.apply (before ++ s :: after) o := by
  obtain ⟨ts, hts, houtput⟩ := transforms_eq_ok h
  refine apply_replace ?_ w' before after
  rw [sourceTransforms, if_pos hpath, sourceTransforms, if_neg (by rw [hs]; exact Bool.false_ne_true), hfile, hreplace,
    hts, houtput, Transform.listOfBytes_text .indented ts (isSpaces_lineFeed)]
  rfl

end Session

/-- **Lists of transforms survive their texts.**  What any list is written as, in either layout, is
read as that list; so the list that a text is read as is read again from what it is written as; and
the list that is printed of a snippet does what the snippet does, in any session, wherever it stands
among the sources. -/
theorem transformLists_survive :
    (∀ (l : Layout) (ts : List Transform),
      Transform.listOfBytes (bytesOf (Json.text l (Transform.listToJson ts))) = .valid ts) ∧
    (∀ (l : Layout) (bs : Bytes) (ts : List Transform), Transform.listOfBytes bs = .valid ts →
      Transform.listOfBytes (bytesOf (Json.text l (Transform.listToJson ts))) = Transform.listOfBytes bs) ∧
    (∀ (w w' : Session) (s : Session.Source) (o : ApplyOptions) (path : String) (before after : List Session.Source),
      Session.isList s.path = false → Session.isList path = true → o.replace = false →
      (w.transforms s o.file).status = 0 →
      w'.apply (before ++ ⟨path, bytesOf (w.transforms s o.file).output⟩ :: after) o = w'.apply (before ++ s :: after) o) := by
  have hread : ∀ (l : Layout) (ts : List Transform),
      Transform.listOfBytes (bytesOf (Json.text l (Transform.listToJson ts))) = .valid ts := by
    intro l ts
    have h : Transform.listOfBytes (bytesOf (Json.text l (Transform.listToJson ts) ++ "")) = .valid ts :=
      Transform.listOfBytes_text l ts (List.forall_mem_nil _)
    rwa [String.append_empty] at h
  refine ⟨hread, fun l bs ts hbs => (hread l ts).trans hbs.symm, ?_⟩
  intro w w' s o path before after hs hpath hreplace h
  exact Session.apply_printed h hs hpath rfl hreplace w' before after

/-- A session in the directory of a module without packages. -/
def moduleSession : Session :=
  ⟨.dir 0o755 [("go.mod", .file ⟨bytesOf "module m\n", 0o644⟩)], [], [], fun _ _ => .missing⟩

/-- A snippet with one function. -/
def functionSnippet : Session.Source := ⟨"snippet.go", bytesOf "// F says é.\nfunc F() \x7b\x7d\n"⟩

/-- A list whose members stand in an order of their own, some left out and one named twice. -/
def functionList : Bytes :=
  bytesOf "[\x7b\"text\":\"func F() \x7b\x7d\",\"name\":\"G\",\"name\":\"\\u0046\",\"kind\":\"add_func\",\"filename\":\"a.go\"\x7d]"

theorem functionList_survives :
    Transform.listOfBytes (bytesOf (Json.text .indented
      (Transform.listToJson [.add ⟨"a.go", .func "" "F", "func F() \x7b\x7d", false⟩]))) = Transform.listOfBytes functionList ∧
    (moduleSession.transforms functionSnippet (some "a.go")).status = 0 ∧
    moduleSession.apply [⟨"list.json", bytesOf (moduleSession.transforms functionSnippet (some "a.go")).output⟩]
      ⟨".", some "a.go", false, false, true⟩ = moduleSession.apply [functionSnippet] ⟨".", some "a.go", false, false, true⟩ := by
  have hlist : Transform.listOfBytes functionList = .valid [.add ⟨"a.go", .func "" "F", "func F() \x7b\x7d", false⟩] := by
    decide +kernel
  have hstatus : (moduleSession.transforms functionSnippet (some "a.go")).status = 0 := by decide +kernel
  exact ⟨transformLists_survive.2.1 .indented functionList _ hlist, hstatus,
    transformLists_survive.2.2 moduleSession moduleSession functionSnippet ⟨".", some "a.go", false, false, true⟩ "list.json"
      [] [] (by decide) (by decide) rfl hstatus⟩

end GoSplice
