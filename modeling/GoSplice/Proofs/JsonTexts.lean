import GoSplice.Json.Printer
import GoSplice.Json.Reader
import GoSplice.Proofs.Utf8

/-!
# JSON texts are read back

What is written of a value, in either layout, is read as that value, blank space around it or not.
Numbers are left out, and so are containers that nest too deep:

    Nests depthLimit v → readChars? (space ++ text of v ++ space') = some v     (readChars?_text)
    Nests depthLimit v → read? (bytesOf (text l v)) = some v                    (read?_text)
-/

namespace GoSplice.Json

/-! ## Space -/

def IsSpaces (s : List Char) : Prop := ∀ c ∈ s, isSpace c

theorem skipSpace_append {s r : List Char} (hs : IsSpaces s) : skipSpace (s ++ r) = skipSpace r := by
  unfold skipSpace
  induction s with
  | nil => rfl
  | cons c s ih =>
    obtain ⟨hc, hs⟩ := List.forall_mem_cons.mp hs
    rw [List.cons_append, List.dropWhile_cons, if_pos hc]
    exact ih hs

theorem skipSpace_cons {c : Char} (hc : isSpace c = false) (r : List Char) : skipSpace (c :: r) = c :: r := by
  unfold skipSpace
  rw [List.dropWhile_cons, hc]
  rfl

theorem isSpaces_lineBreak (l : Layout) (depth : Nat) : IsSpaces (l.lineBreak depth).toList := by
  intro c hc
  cases l with
  | compact => cases hc
  | indented =>
    change c ∈ ("\n" ++ String.ofList (List.replicate (2 * depth) ' ')).toList at hc
    rw [String.toList_append] at hc
    rcases List.mem_append.mp hc with hc | hc
    · rw [List.mem_singleton.mp hc]
      rfl
    · rw [String.toList_ofList] at hc
      rw [List.eq_of_mem_replicate hc]
      rfl

/-! ## Strings -/

theorem hexDigit?_hexDigit {d : Nat} (hd : d < 16) : hexDigit? (Text.hexDigit d) = some d := by
  revert d
  decide

theorem hex4?_hexPadded {n : Nat} (hn : n < 0x10000) (r : List Char) :
    hex4? (Text.hexPadded 4 n ++ r) = some (n, r) := by
  have hdigit : ∀ m : Nat, hexDigit? (Text.hexDigit (m % 16)) = some (m % 16) := fun m =>
    hexDigit?_hexDigit (Nat.mod_lt m (by decide))
  show hex4? (Text.hexDigit (n / 16 / 16 / 16 % 16) :: Text.hexDigit (n / 16 / 16 % 16) ::
    Text.hexDigit (n / 16 % 16) :: Text.hexDigit (n % 16) :: r) = _
  rw [hex4?, hdigit, hdigit, hdigit, hdigit]
  show some (((n / 16 / 16 / 16 % 16 * 16 + n / 16 / 16 % 16) * 16 + n / 16 % 16) * 16 + n % 16, r) = _
  rw [show ((n / 16 / 16 / 16 % 16 * 16 + n / 16 / 16 % 16) * 16 + n / 16 % 16) * 16 + n % 16 = n by omega]

theorem escape?_control {c : Char} (hc : c.toNat < 0x20) (r : List Char) :
    escape? ('u' :: Text.hexPadded 4 c.toNat ++ r) = some (c, r) := by
  show unicodeEscape? (Text.hexPadded 4 c.toNat ++ r) = some (c, r)
  unfold unicodeEscape?
  rw [hex4?_hexPadded (by omega)]
  show (if 0xD800 ≤ c.toNat ∧ c.toNat < 0xDC00 then _ else if 0xDC00 ≤ c.toNat ∧ c.toNat < 0xE000 then _ else _) = _
  rw [if_neg (by omega), if_neg (by omega), Char.ofNat_toNat]
  rfl

/-- The steps of reading a string: the closing quote, or a character and what is behind it. -/
theorem stringRest?_cons (fuel : Nat) (c : Char) (r : List Char) :
    stringRest? (fuel + 1) (c :: r) =
      if c = '"' then some ([], r)
      else if c.toNat < 0x20 then none
      else (if c = '\\' then escape? r else some (c, r)).bind fun x =>
        (stringRest? fuel x.2).map fun y => (x.1 :: y.1, y.2) := by
  rw [stringRest?]
  split
  · rfl
  split
  · rfl
  split
  · cases escape? r with
    | none => rfl
    | some x =>
      show (stringRest? fuel x.2 >>= _) = (stringRest? fuel x.2).map _
      cases stringRest? fuel x.2 <;> rfl
  · show (stringRest? fuel r >>= _) = (stringRest? fuel r).map _
    cases stringRest? fuel r <;> rfl

/-- One character is read back, and then what is behind it. -/
theorem stringRest?_escapeChar (fuel : Nat) (c : Char) (r : List Char) :
    stringRest? (fuel + 1) (escapeChar c ++ r) = (stringRest? fuel r).map fun x => (c :: x.1, x.2) := by
  have hescaped : ∀ s : List Char, escape? s = some (c, r) →
      stringRest? (fuel + 1) ('\\' :: s) = (stringRest? fuel r).map fun x => (c :: x.1, x.2) := by
    intro s hs
    rw [stringRest?_cons, if_neg (by decide), if_neg (by decide), if_pos rfl, hs]
    rfl
  unfold escapeChar
  split
  case h_8 hquote hback _ _ _ _ _ =>
    split
    · next hc => exact hescaped _ (escape?_control hc r)
    · next hc =>
      rw [List.singleton_append, stringRest?_cons, if_neg hquote, if_neg hc, if_neg hback]
      rfl
  all_goals exact hescaped _ rfl

theorem stringRest?_escaped {fuel : Nat} {cs : List Char} (hfuel : cs.length < fuel) (r : List Char) :
    stringRest? fuel (cs.flatMap escapeChar ++ '"' :: r) = some (cs, r) := by
  induction cs generalizing fuel with
  | nil =>
    obtain ⟨fuel, rfl⟩ := Nat.exists_eq_add_one.mpr hfuel
    rfl
  | cons c cs ih =>
    obtain ⟨fuel, rfl⟩ := Nat.exists_eq_add_one.mpr (Nat.zero_lt_of_lt hfuel)
    rw [List.flatMap_cons, List.append_assoc, stringRest?_escapeChar, ih (Nat.lt_of_succ_lt_succ hfuel)]
    rfl

theorem length_escapeChar_pos (c : Char) : 1 ≤ (escapeChar c).length := by
  unfold escapeChar
  split
  case h_8 => split <;> exact Nat.succ_le_succ (Nat.zero_le _)
  all_goals exact Nat.succ_le_succ (Nat.zero_le _)

theorem length_le_escaped (cs : List Char) : cs.length ≤ (cs.flatMap escapeChar).length := by
  induction cs with
  | nil => exact Nat.le_refl 0
  | cons c cs ih =>
    rw [List.length_cons, List.flatMap_cons, List.length_append]
    have := length_escapeChar_pos c
    omega

theorem stringText_chars (s : String) :
    (stringText s).toList = '"' :: (s.toList.flatMap escapeChar ++ ['"']) := String.toList_ofList

theorem string?_stringText (s : String) (r : List Char) :
    string? (s.toList.flatMap escapeChar ++ '"' :: r) = some (s, r) := by
  unfold string?
  have hle := length_le_escaped s.toList
  rw [stringRest?_escaped (by rw [List.length_append]; omega)]
  show some (String.ofList s.toList, r) = some (s, r)
  rw [String.ofList_toList]

/-! ## Values -/

/-- A value without numbers whose containers nest at most so deep. -/
inductive Nests : Nat → Value → Prop
  | null {depth : Nat} : Nests depth .null
  | bool {depth : Nat} {b : Bool} : Nests depth (.bool b)
  | string {depth : Nat} {s : String} : Nests depth (.string s)
  | array {depth : Nat} {items : List Value} : (∀ v ∈ items, Nests depth v) → Nests (depth + 1) (.array items)
  | object {depth : Nat} {members : List (String × Value)} :
      (∀ m ∈ members, Nests depth m.2) → Nests (depth + 1) (.object members)

theorem itemTexts_eq (l : Layout) (depth : Nat) (items : List Value) :
    itemTexts l depth items = items.map (textAt l depth) := by
  induction items with
  | nil => rfl
  | cons v vs ih => rw [itemTexts, ih, List.map_cons]

/-- A member as text. -/
def memberText (l : Layout) (depth : Nat) (m : String × Value) : String :=
  stringText m.1 ++ l.colon ++ textAt l depth m.2

theorem memberTexts_eq (l : Layout) (depth : Nat) (members : List (String × Value)) :
    memberTexts l depth members = members.map (memberText l depth) := by
  induction members with
  | nil => rfl
  | cons m ms ih => rw [memberTexts, ih, List.map_cons, memberText]

/-- Some texts with commas and line breaks between them, and a line break and a mark behind the last. -/
def listChars (l : Layout) (depth : Nat) (closing : Char) (texts : List (List Char)) : List Char :=
  (',' :: (l.lineBreak (depth + 1)).toList).intercalate texts ++ (l.lineBreak depth).toList ++ [closing]

theorem bracketed_chars (l : Layout) (depth : Nat) {opening closing : String} {o c : Char} {texts : List String}
    (ho : opening.toList = [o]) (hc : closing.toList = [c]) (hne : texts ≠ []) :
    (bracketed l depth opening closing texts).toList =
      o :: ((l.lineBreak (depth + 1)).toList ++ listChars l depth c (texts.map String.toList)) := by
  unfold bracketed listChars
  rw [if_neg (by simpa using hne)]
  simp [String.toList_intercalate, ho, hc]

theorem bracketed_nil (l : Layout) (depth : Nat) {opening closing : String} {o c : Char}
    (ho : opening.toList = [o]) (hc : closing.toList = [c]) :
    (bracketed l depth opening closing []).toList = [o, c] := by
  unfold bracketed
  rw [if_pos List.isEmpty_nil, String.toList_append, ho, hc]
  rfl

theorem listChars_singleton (l : Layout) (depth : Nat) (closing : Char) (t : List Char) :
    listChars l depth closing [t] = t ++ ((l.lineBreak depth).toList ++ [closing]) := by
  rw [listChars, List.intercalate_singleton, List.append_assoc]

theorem listChars_cons (l : Layout) (depth : Nat) (closing : Char) (t u : List Char) (ts : List (List Char)) :
    listChars l depth closing (t :: u :: ts) =
      t ++ ',' :: ((l.lineBreak (depth + 1)).toList ++ listChars l depth closing (u :: ts)) := by
  rw [listChars, List.intercalate_cons_cons, listChars]
  simp

/-- Whether a value is read from a text, whatever stands before and behind. -/
def ReadFrom (depth : Nat) (v : Value) (text : List Char) : Prop :=
  ∀ fuel space rest, IsSpaces space → 2 * (space ++ (text ++ rest)).length + 2 ≤ fuel →
    value? fuel depth (space ++ (text ++ rest)) = some (v, rest)

/-- Items that are read one by one are read together. -/
theorem items?_listChars {l : Layout} {depth depth' : Nat} {v : Value} {vs : List Value}
    (h : ∀ w ∈ v :: vs, ReadFrom depth' w (textAt l (depth + 1) w).toList) (fuel : Nat)
    (space rest : List Char) (hspace : IsSpaces space)
    (hfuel : 2 * (space ++ (listChars l depth ']' ((v :: vs).map fun w => (textAt l (depth + 1) w).toList) ++ rest)).length
      + 3 ≤ fuel) :
    items? fuel depth'
      (space ++ (listChars l depth ']' ((v :: vs).map fun w => (textAt l (depth + 1) w).toList) ++ rest)) =
      some (v :: vs, rest) := by
  induction vs generalizing v fuel space with
  | nil =>
    obtain ⟨fuel, rfl⟩ := Nat.exists_eq_add_one.mpr (Nat.lt_of_lt_of_le (Nat.succ_pos _) hfuel)
    rw [List.map_singleton, listChars_singleton, List.append_assoc] at hfuel ⊢
    rw [items?, h v List.mem_cons_self fuel space _ hspace (by omega)]
    dsimp only
    rw [List.append_assoc, skipSpace_append (isSpaces_lineBreak l depth), List.singleton_append, skipSpace_cons rfl]
    rfl
  | cons w ws ih =>
    obtain ⟨fuel, rfl⟩ := Nat.exists_eq_add_one.mpr (Nat.lt_of_lt_of_le (Nat.succ_pos _) hfuel)
    obtain ⟨hv, hws⟩ := List.forall_mem_cons.mp h
    rw [List.map_cons, List.map_cons, listChars_cons, List.append_assoc] at hfuel ⊢
    rw [items?, hv fuel space _ hspace (by omega)]
    dsimp only
    rw [List.cons_append, skipSpace_cons rfl, List.append_assoc]
    show (items? fuel depth' ((l.lineBreak (depth + 1)).toList ++
      (listChars l depth ']' ((w :: ws).map fun w => (textAt l (depth + 1) w).toList) ++ rest))).map _ = _
    rw [ih hws fuel _ (isSpaces_lineBreak l (depth + 1)) ?_]
    · rfl
    · simp only [List.length_append, List.length_cons, List.map_cons] at hfuel ⊢
      omega

theorem colon_chars (l : Layout) : ∃ space, l.colon.toList = ':' :: space ∧ IsSpaces space := by
  cases l with
  | compact => exact ⟨[], rfl, List.forall_mem_nil _⟩
  | indented => exact ⟨[' '], rfl, List.forall_mem_singleton.mpr rfl⟩

theorem memberText_chars (l : Layout) (depth : Nat) (m : String × Value) :
    (memberText l depth m).toList =
      '"' :: (m.1.toList.flatMap escapeChar ++ '"' :: (l.colon.toList ++ (textAt l depth m.2).toList)) := by
  unfold memberText
  rw [String.toList_append, String.toList_append, stringText_chars]
  simp

/-- The name of a member and its colon are read, and its value is left. -/
theorem memberName?_memberText (l : Layout) (depth : Nat) (m : String × Value) {space : List Char} (hspace : IsSpaces space)
    (rest : List Char) : ∃ behind, IsSpaces behind ∧
      behind.length + (textAt l depth m.2).toList.length < (memberText l depth m).toList.length ∧
      memberName? (space ++ ((memberText l depth m).toList ++ rest)) =
        some (m.1, behind ++ ((textAt l depth m.2).toList ++ rest)) := by
  obtain ⟨behind, hcolon, hbehind⟩ := colon_chars l
  refine ⟨behind, hbehind, ?_, ?_⟩
  · rw [memberText_chars, hcolon]
    simp only [List.length_append, List.length_cons]
    omega
  · rw [memberText_chars, hcolon, memberName?, skipSpace_append hspace, List.cons_append, skipSpace_cons rfl,
      List.append_assoc, List.cons_append]
    show (string? (m.1.toList.flatMap escapeChar ++ '"' :: (':' :: behind ++ (textAt l depth m.2).toList ++ rest)) >>= _) = _
    rw [string?_stringText, Option.bind_eq_bind, Option.bind_some, List.cons_append, List.cons_append]
    dsimp only
    rw [skipSpace_cons rfl, List.append_assoc]
    rfl

/-- Members whose values are read one by one are read together. -/
theorem members?_listChars {l : Layout} {depth depth' : Nat} {m : String × Value} {ms : List (String × Value)}
    (h : ∀ n ∈ m :: ms, ReadFrom depth' n.2 (textAt l (depth + 1) n.2).toList) (fuel : Nat)
    (space rest : List Char) (hspace : IsSpaces space)
    (hfuel : 2 * (space ++ (listChars l depth '\x7d' ((m :: ms).map fun n => (memberText l (depth + 1) n).toList) ++
      rest)).length + 3 ≤ fuel) :
    members? fuel depth'
      (space ++ (listChars l depth '\x7d' ((m :: ms).map fun n => (memberText l (depth + 1) n).toList) ++ rest)) =
      some (m :: ms, rest) := by
  induction ms generalizing m fuel space with
  | nil =>
    obtain ⟨fuel, rfl⟩ := Nat.exists_eq_add_one.mpr (Nat.lt_of_lt_of_le (Nat.succ_pos _) hfuel)
    rw [List.map_singleton, listChars_singleton, List.append_assoc] at hfuel ⊢
    obtain ⟨behind, hbehind, hlength, hname⟩ := memberName?_memberText l (depth + 1) m hspace
      ((l.lineBreak depth).toList ++ ['\x7d'] ++ rest)
    simp only [List.length_append] at hfuel
    rw [members?, hname]
    dsimp only
    rw [h m List.mem_cons_self fuel behind _ hbehind (by simp only [List.length_append]; omega)]
    dsimp only
    rw [List.append_assoc, skipSpace_append (isSpaces_lineBreak l depth), List.singleton_append, skipSpace_cons rfl]
    rfl
  | cons n ns ih =>
    obtain ⟨fuel, rfl⟩ := Nat.exists_eq_add_one.mpr (Nat.lt_of_lt_of_le (Nat.succ_pos _) hfuel)
    obtain ⟨hm, hns⟩ := List.forall_mem_cons.mp h
    rw [List.map_cons, List.map_cons, listChars_cons, List.append_assoc] at hfuel ⊢
    obtain ⟨behind, hbehind, hlength, hname⟩ := memberName?_memberText l (depth + 1) m hspace
      (',' :: ((l.lineBreak (depth + 1)).toList ++ listChars l depth '\x7d' ((memberText l (depth + 1) n).toList ::
        ns.map fun n => (memberText l (depth + 1) n).toList)) ++ rest)
    simp only [List.length_append, List.length_cons] at hfuel
    rw [members?, hname]
    dsimp only
    rw [hm fuel behind _ hbehind (by simp only [List.length_append, List.length_cons]; omega)]
    dsimp only
    rw [List.cons_append, skipSpace_cons rfl, List.append_assoc]
    show (members? fuel depth' ((l.lineBreak (depth + 1)).toList ++
      (listChars l depth '\x7d' ((n :: ns).map fun n => (memberText l (depth + 1) n).toList) ++ rest))).map _ = _
    rw [ih hns fuel _ (isSpaces_lineBreak l (depth + 1)) ?_]
    · rfl
    · simp only [List.length_append, List.map_cons]
      omega

/-- No text of a value begins with space or a closing bracket. -/
theorem textAt_head {depth : Nat} {v : Value} (h : Nests depth v) (l : Layout) (d : Nat) :
    ∃ c r, (textAt l d v).toList = c :: r ∧ isSpace c = false ∧ c ≠ ']' := by
  cases h with
  | null => exact ⟨'n', ['u', 'l', 'l'], by rw [textAt]; rfl, rfl, by decide⟩
  | @bool _ b =>
    rw [textAt]
    cases b with
    | true => exact ⟨'t', ['r', 'u', 'e'], rfl, rfl, by decide⟩
    | false => exact ⟨'f', ['a', 'l', 's', 'e'], rfl, rfl, by decide⟩
  | @string _ s => exact ⟨'"', _, by rw [textAt, stringText_chars], rfl, by decide⟩
  | @array _ items _ =>
    rw [textAt, itemTexts_eq]
    cases items with
    | nil => exact ⟨'[', [']'], bracketed_nil l d rfl rfl, rfl, by decide⟩
    | cons v vs => exact ⟨'[', _, bracketed_chars l d rfl rfl (List.cons_ne_nil _ _), rfl, by decide⟩
  | @object _ members _ =>
    rw [textAt, memberTexts_eq]
    cases members with
    | nil => exact ⟨'\x7b', ['\x7d'], bracketed_nil l d rfl rfl, rfl, by decide⟩
    | cons m ms => exact ⟨'\x7b', _, bracketed_chars l d rfl rfl (List.cons_ne_nil _ _), rfl, by decide⟩

theorem listChars_items_head {depth : Nat} {v : Value} (h : Nests depth v) (l : Layout) (d : Nat) (vs : List Value)
    (rest : List Char) :
    ∃ c r, listChars l d ']' ((v :: vs).map fun w => (textAt l (d + 1) w).toList) ++ rest = c :: r ∧
      isSpace c = false ∧ c ≠ ']' := by
  obtain ⟨c, r, hv, hc, hclosing⟩ := textAt_head h l (d + 1)
  cases vs with
  | nil =>
    refine ⟨c, r ++ ((l.lineBreak d).toList ++ [']']) ++ rest, ?_, hc, hclosing⟩
    rw [List.map_singleton, listChars_singleton, hv, List.cons_append, List.cons_append]
  | cons w ws =>
    refine ⟨c, r ++ (',' :: ((l.lineBreak (d + 1)).toList ++
      listChars l d ']' ((w :: ws).map fun w => (textAt l (d + 1) w).toList))) ++ rest, ?_, hc, hclosing⟩
    rw [List.map_cons, List.map_cons, listChars_cons, hv, List.cons_append, List.cons_append]

theorem listChars_members_head (l : Layout) (d : Nat) (m : String × Value) (ms : List (String × Value)) (rest : List Char) :
    ∃ r, listChars l d '\x7d' ((m :: ms).map fun n => (memberText l (d + 1) n).toList) ++ rest = '"' :: r := by
  cases ms with
  | nil => exact ⟨_, by rw [List.map_singleton, listChars_singleton, memberText_chars]; rfl⟩
  | cons n ns => exact ⟨_, by rw [List.map_cons, List.map_cons, listChars_cons, memberText_chars]; rfl⟩

/-- The steps of reading a container that holds something. -/
theorem value?_items {fuel depth : Nat} {s t u : List Char} (hs : skipSpace s = '[' :: t) (ht : skipSpace t = u)
    (hu : ∀ r, u ≠ ']' :: r) :
    value? (fuel + 1) (depth + 1) s = (items? fuel depth u).map fun x => (.array x.1, x.2) := by
  simp only [value?, hs, ht]

theorem value?_members {fuel depth : Nat} {s t u : List Char} (hs : skipSpace s = '\x7b' :: t) (ht : skipSpace t = u)
    (hu : ∀ r, u ≠ '\x7d' :: r) :
    value? (fuel + 1) (depth + 1) s = (members? fuel depth u).map fun x => (.object x.1, x.2) := by
  simp only [value?, hs, ht]

/-- A value is read from its text. -/
theorem Nests.readFrom {depth : Nat} {v : Value} (h : Nests depth v) (l : Layout) (d : Nat) :
    ReadFrom depth v (textAt l d v).toList := by
  induction h generalizing d with
  | null =>
    rintro (_ | fuel) space rest hspace hfuel
    · omega
    · rw [textAt, value?, skipSpace_append hspace]
      rfl
  | @bool _ b =>
    rintro (_ | fuel) space rest hspace hfuel
    · omega
    · rw [textAt, value?, skipSpace_append hspace]
      cases b <;> rfl
  | @string _ s =>
    rintro (_ | fuel) space rest hspace hfuel
    · omega
    · rw [textAt, stringText_chars, value?, skipSpace_append hspace, List.cons_append, skipSpace_cons rfl,
        List.append_assoc]
      show ((string? (s.toList.flatMap escapeChar ++ '"' :: rest)).map _) = _
      rw [string?_stringText]
      rfl
  | @array depth items hitems ih =>
    rintro (_ | fuel) space rest hspace hfuel
    · omega
    rw [textAt, itemTexts_eq] at hfuel ⊢
    cases items with
    | nil =>
      rw [value?, skipSpace_append hspace, List.map_nil, bracketed_nil l d rfl rfl]
      rfl
    | cons v vs =>
      rw [bracketed_chars l d (o := '[') (c := ']') rfl rfl (by simp), List.map_map, Function.comp_def,
        List.cons_append, List.append_assoc] at hfuel ⊢
      obtain ⟨c, r, hhead, hc, hclosing⟩ := listChars_items_head (hitems v List.mem_cons_self) l d vs rest
      have hskipped := (skipSpace_append (isSpaces_lineBreak l (d + 1))).trans
        ((congrArg skipSpace hhead).trans ((skipSpace_cons hc r).trans hhead.symm))
      rw [value?_items ((skipSpace_append hspace).trans (skipSpace_cons rfl _)) hskipped fun r' h =>
        hclosing (List.cons.inj (hhead.symm.trans h)).1]
      have hread := items?_listChars (fun w hw => ih w hw (d + 1)) fuel [] rest
        (List.forall_mem_nil _) (by
          simp only [List.length_append, List.length_cons, List.nil_append] at hfuel ⊢
          omega)
      rw [List.nil_append] at hread
      rw [hread]
      rfl
  | @object depth members hmembers ih =>
    rintro (_ | fuel) space rest hspace hfuel
    · omega
    rw [textAt, memberTexts_eq] at hfuel ⊢
    cases members with
    | nil =>
      rw [value?, skipSpace_append hspace, List.map_nil, bracketed_nil l d rfl rfl]
      rfl
    | cons m ms =>
      rw [bracketed_chars l d (o := '\x7b') (c := '\x7d') rfl rfl (by simp), List.map_map, Function.comp_def,
        List.cons_append, List.append_assoc] at hfuel ⊢
      obtain ⟨r, hhead⟩ := listChars_members_head l d m ms rest
      have hskipped := (skipSpace_append (isSpaces_lineBreak l (d + 1))).trans
        ((congrArg skipSpace hhead).trans ((skipSpace_cons rfl r).trans hhead.symm))
      rw [value?_members ((skipSpace_append hspace).trans (skipSpace_cons rfl _)) hskipped fun r' h =>
        absurd (List.cons.inj (hhead.symm.trans h)).1 (by decide)]
      have hread := members?_listChars (fun n hn => ih n hn (d + 1)) fuel [] rest
        (List.forall_mem_nil _) (by
          simp only [List.length_append, List.length_cons, List.nil_append] at hfuel ⊢
          omega)
      rw [List.nil_append] at hread
      rw [hread]
      rfl

/-! ## Texts -/

theorem readChars?_text {v : Value} (h : Nests depthLimit v) (l : Layout) {space : List Char} (hspace : IsSpaces space) :
    readChars? ((text l v).toList ++ space) = some v := by
  unfold readChars?
  have hread := h.readFrom l 0 _ [] space (List.forall_mem_nil _) (Nat.le_refl _)
  rw [List.nil_append] at hread
  rw [text, hread]
  show (if (skipSpace space).isEmpty then some v else none) = some v
  rw [← List.append_nil space, skipSpace_append hspace]
  rfl

/-- The bytes of a text are read back, with space behind it or without. -/
theorem read?_text {v : Value} (h : Nests depthLimit v) (l : Layout) {space : String} (hspace : IsSpaces space.toList) :
    read? (bytesOf (text l v ++ space)) = some v := by
  unfold read?
  rw [← String.ofList_toList (s := text l v ++ space), bytesOf_ofList, Utf8.decode?_encode, String.toList_append]
  exact readChars?_text h l hspace

end GoSplice.Json
