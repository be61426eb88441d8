import GoSplice.Proofs.ImportGroups

/-!
# Specs in rows

Between the parentheses of an import a spec stands first, begins a line or stands behind a semicolon, and no
semicolon begins a line or stands behind another one.  Whether it is so can be told from the parts of the
import, and an import in parentheses is read just if it is:

    ps fit → ((∃ ns, IsGroup (tokens of ps) ns) ↔ Parted true ps)         (parted_of_row, row_of_parted)
    IsImport head ps [z] → Parted true ps → what these are is an item      (isItem_block)
    g.IsItem, the tokens of g are these → Parted true ps                   (IsItem.parted)
-/

namespace GoSplice

open Syntax

namespace Syntax

open Grammar

/-! ## Rows of tokens -/

/-- The tokens of specs that begin a line or stand behind a semicolon each; the first may stand without these
where there is room for it. -/
inductive Row : Bool → List Token → List Node → Prop
  | nil {room : Bool} : Row room [] []
  | spec {room : Bool} {name : Option Token} {path : Token} {ts : List Token} {ns : List Node} : IsSpec name path →
      (room ∨ BeginsLine name path) → Row false ts ns → Row room (name.toList ++ path :: ts) (specNodeOf name path :: ns)
  | semicolon {s : Token} {ts : List Token} {ns : List Node} : s.kind = .operator .semicolon → s.lineBreak = none →
      Row true ts ns → Row false (s :: ts) ns

section Rows

variable {ts us : List Token} {ns : List Node}

theorem MoreSpecs.row (h : MoreSpecs ts ns) (hus : Row false us []) : Row false (ts ++ us) ns := by
  induction h with
  | nil => exact hus
  | line hspec hline _ ih =>
    rw [List.append_assoc, List.cons_append]
    exact .spec hspec (.inr hline) ih
  | semicolon hs hbreak hspec _ ih =>
    rw [List.cons_append, List.append_assoc, List.cons_append]
    exact .semicolon hs hbreak (.spec hspec (.inl rfl) ih)

theorem IsGroup.row (h : IsGroup ts ns) : Row true ts ns := by
  cases h with
  | nil => exact .nil
  | specs hspec hmore =>
    have hrest := hmore.row .nil
    rw [List.append_nil] at hrest
    exact .spec hspec (.inl rfl) hrest
  | semicolon hspec hmore hs hbreak => exact .spec hspec (.inl rfl) (hmore.row (.semicolon hs hbreak .nil))

/-- Behind a spec stand further ones, and a semicolon at most; where there is room for a spec, a group does. -/
theorem Row.isGroup {room : Bool} (h : Row room ts ns) :
    (room = false → ∃ us sep, ts = us ++ sep ∧ MoreSpecs us ns ∧
      (sep = [] ∨ ∃ s : Token, sep = [s] ∧ s.kind = .operator .semicolon ∧ s.lineBreak = none)) ∧
    (room = true → IsGroup ts ns) := by
  induction h with
  | nil => exact ⟨fun _ => ⟨[], [], rfl, .nil, .inl rfl⟩, fun _ => .nil⟩
  | @spec room name path ts ns hspec hroom _ ih =>
    obtain ⟨us, sep, rfl, hmore, hsep⟩ := ih.1 rfl
    refine ⟨fun hfalse => ⟨name.toList ++ path :: us, sep, by simp, ?_, hsep⟩, fun _ => ?_⟩
    · exact .line hspec (hroom.resolve_left (by simp [hfalse])) hmore
    · rcases hsep with rfl | ⟨s, rfl, hs, hbreak⟩
      · rw [List.append_nil]
        exact .specs hspec hmore
      · exact .semicolon hspec hmore hs hbreak
  | @semicolon s ts ns hs hbreak _ ih =>
    refine ⟨fun _ => ?_, nofun⟩
    cases ih.2 rfl with
    | nil => exact ⟨[], [s], rfl, .nil, .inr ⟨s, rfl, hs, hbreak⟩⟩
    | specs hspec hmore => exact ⟨_, [], (List.append_nil _).symm, .semicolon hs hbreak hspec hmore, .inl rfl⟩
    | @semicolon name s' path us _ hspec hmore hs' hbreak' =>
      exact ⟨s :: (name.toList ++ path :: us), [s'], by simp, .semicolon hs hbreak hspec hmore,
        .inr ⟨s', rfl, hs', hbreak'⟩⟩

theorem isGroup_iff_row : IsGroup ts ns ↔ Row true ts ns :=
  ⟨IsGroup.row, fun h => h.isGroup.2 rfl⟩

end Rows

/-! ## Rows of parts -/

namespace ImportPart

/-- Whether specs among parts begin a line or stand behind a semicolon each, with no semicolon before these
two; the first spec may stand without, and no semicolon, where there is room for a spec. -/
def Parted : Bool → List ImportPart → Prop
  | _, [] => True
  | room, .other l :: ps =>
    if l.cls = .token (.operator .semicolon) then room = false ∧ Parted true ps
    else Parted (room || l.cls = .newline) ps
  | room, .spec _ _ :: ps => room = true ∧ Parted false ps

/-- Whether there is room for a spec behind parts. -/
def roomBehind : Bool → List ImportPart → Bool
  | room, [] => room
  | room, .other l :: ps =>
    if l.cls = .token (.operator .semicolon) then roomBehind true ps else roomBehind (room || l.cls = .newline) ps
  | _, .spec _ _ :: ps => roomBehind false ps

theorem parted_append {room : Bool} {ps qs : List ImportPart} :
    Parted room (ps ++ qs) ↔ Parted room ps ∧ Parted (roomBehind room ps) qs := by
  induction ps generalizing room with
  | nil => exact (and_iff_right True.intro).symm
  | cons p ps ih =>
    cases p with
    | other l =>
      rw [List.cons_append, Parted, Parted, roomBehind]
      split
      · rw [ih, and_assoc]
      · exact ih
    | spec name literal => rw [List.cons_append, Parted, Parted, roomBehind, ih, and_assoc]

section Place

variable {name ls : List Lexeme} {literal : Lexeme} {pos : Nat} {brk : Option Nat}

/-- The tokens of a spec. -/
theorem place_spec_part (h : (spec name literal).Fits) (hne : ∀ l ∈ name ++ [literal], l.text ≠ []) (pos : Nat)
    (brk : Option Nat) (ls : List Lexeme) :
    ∃ n t, (place pos brk ((spec name literal).stretches ++ ls)).tokens =
        Option.toList n ++ t :: (place (pos + byteWidth (texts (name ++ [literal]))) none ls).tokens ∧
      IsSpec n t ∧ (n.getD t).lineBreak = brk ∧ specNodeOf n t = tree pos name literal := by
  have hpath : 0 < byteWidth literal.text := byteWidth_pos (hne literal (by simp))
  cases h with
  | bare hl =>
    have hlt : pos < pos + byteWidth literal.text := by omega
    refine ⟨none, ⟨.text, pos, pos + byteWidth literal.text, brk⟩, ?_, ⟨nofun, ⟨rfl, hlt⟩, hlt⟩, rfl, ?_⟩
    · rw [stretches, List.nil_append, List.singleton_append, place_cons_of_token hl]
      simp
    · simp [specNodeOf, tree]
  | @named n _ k fill hn hk hfill hl =>
    have hname : 0 < byteWidth n.text := byteWidth_pos (hne n (by simp))
    generalize hm : pos + byteWidth n.text + byteWidth (texts fill) = m
    have hstop : pos + byteWidth (texts (n :: fill ++ [literal])) = m + byteWidth literal.text := by
      rw [← hm]
      simp [byteWidth_append, Nat.add_assoc]
    generalize hb : (place (pos + byteWidth n.text) none fill).lastBreak = b
    refine ⟨some ⟨k, pos, pos + byteWidth n.text, brk⟩, ⟨.text, m, m + byteWidth literal.text, b⟩, ?_, ⟨?_, ⟨rfl, ?_⟩, ?_⟩,
      rfl, ?_⟩
    · rw [hstop, stretches, List.cons_append, List.cons_append, place_cons_of_token hn, List.append_assoc]
      dsimp only
      rw [place_append_tokens, hfill.tokens, List.nil_append, hb, hm, List.singleton_append, place_cons_of_token hl]
      rfl
    · rintro _ ⟨⟩
      exact ⟨hk, by dsimp only; omega⟩
    · dsimp only
      omega
    · simp only [specNodeOf, Tree.start, Option.map_some, Option.getD_some]
      omega
    · simp [specNodeOf, tree, ← hm, byteWidth_append, Nat.add_assoc]

end Place

/-- The name and the path of a spec can be told from its tokens. -/
theorem spec_tokens_inj {n n' : Option Token} {t t' : Token} {ts ts' : List Token} (h : IsSpec n t) (h' : IsSpec n' t')
    (heq : n.toList ++ t :: ts = n'.toList ++ t' :: ts') : n = n' ∧ t = t' ∧ ts = ts' := by
  have hnot : ∀ {m u : Token}, m.kind ∈ nameKinds → u.kind = .text → m ≠ u := by
    rintro m u hm hu rfl
    rw [hu] at hm
    exact absurd hm (by decide)
  cases n with
  | none =>
    cases n' with
    | none => exact ⟨rfl, List.cons.inj heq⟩
    | some m => exact absurd (List.cons.inj heq).1.symm (hnot (h'.isName m rfl).1 h.isPath.1)
  | some m =>
    cases n' with
    | none => exact absurd (List.cons.inj heq).1 (hnot (h.isName m rfl).1 h'.isPath.1)
    | some m' =>
      obtain ⟨rfl, hrest⟩ := List.cons.inj heq
      exact ⟨rfl, List.cons.inj hrest⟩

section Parts

variable {ps : List ImportPart} {room : Bool}

/-- No semicolon is the first token of a spec. -/
theorem ne_semicolon_of_spec {n : Option Token} {t s : Token} {ts us : List Token} (h : IsSpec n t)
    (heq : s :: us = n.toList ++ t :: ts) : s.kind ≠ .operator .semicolon := by
  cases n with
  | none =>
    rw [(List.cons.inj heq).1, h.isPath.1]
    decide
  | some m =>
    rw [(List.cons.inj heq).1]
    intro hm
    have hname := (h.isName m rfl).1
    rw [hm] at hname
    exact absurd hname (by decide)

/-- A row of tokens is one of parts. -/
theorem parted_of_row (hps : ∀ p ∈ ps, p.Fits) (hne : ∀ l ∈ code ps, l.text ≠ []) {pos : Nat} {brk : Option Nat}
    {ns : List Node} (h : Row room (place pos brk (code ps)).tokens ns) : Parted (room || brk.isSome) ps := by
  induction ps generalizing room pos brk ns with
  | nil => exact True.intro
  | cons p ps ih =>
    obtain ⟨hp, hfits⟩ := List.forall_mem_cons.mp hps
    rw [code_cons] at hne h
    obtain ⟨hstretch, htexts⟩ := List.forall_mem_append.mp hne
    cases p with
    | other l =>
      rw [stretches, List.singleton_append, place] at h
      rw [Parted]
      cases hc : l.cls with
      | blank | comment =>
        rw [hc] at h
        rw [if_neg (by rintro ⟨⟩)]
        simpa using ih hfits htexts h
      | newline =>
        rw [hc] at h
        rw [if_neg (by rintro ⟨⟩)]
        have hrest := ih hfits htexts h
        rw [show (brk.or (some (pos + byteWidth l.text))).isSome = true by cases brk <;> rfl] at hrest
        simpa using hrest
      | token k =>
        have hk : k = .operator .semicolon := by
          cases hp with
          | other hl => exact hl k hc
        subst hk
        rw [hc] at h
        rw [if_pos rfl]
        dsimp only at h
        generalize hts : _ :: (place (pos + byteWidth l.text) none (code ps)).tokens = ts at h
        cases h with
        | nil => cases hts
        | spec hspec _ _ => exact absurd rfl (ne_semicolon_of_spec hspec hts)
        | semicolon hs hbreak hrest =>
          obtain ⟨rfl, rfl⟩ := List.cons.inj hts
          obtain rfl : brk = none := hbreak
          exact ⟨rfl, ih hfits htexts hrest⟩
    | spec name literal =>
      obtain ⟨n, t, htokens, hspec, hline, -⟩ := place_spec_part hp hstretch pos brk (code ps)
      rw [htokens] at h
      generalize hts : Option.toList n ++ t :: _ = ts at h
      rw [Parted]
      cases h with
      | nil => cases n <;> cases hts
      | spec hspec' hroom hrest =>
        obtain ⟨rfl, rfl, rfl⟩ := spec_tokens_inj hspec hspec' hts
        refine ⟨?_, ih hfits htexts hrest⟩
        rw [BeginsLine, hline] at hroom
        simpa [Option.isSome_iff_ne_none] using hroom
      | semicolon hs _ _ => exact absurd hs (ne_semicolon_of_spec hspec hts.symm)

/-- A row of parts is one of tokens, and its specs are those of the parts. -/
theorem row_of_parted (hps : ∀ p ∈ ps, p.Fits) (hne : ∀ l ∈ code ps, l.text ≠ []) {pos : Nat} {brk : Option Nat}
    (h : Parted (room || brk.isSome) ps) : Row room (place pos brk (code ps)).tokens (trees pos ps) := by
  induction ps generalizing room pos brk with
  | nil => exact .nil
  | cons p ps ih =>
    obtain ⟨hp, hfits⟩ := List.forall_mem_cons.mp hps
    rw [code_cons] at hne ⊢
    obtain ⟨hstretch, htexts⟩ := List.forall_mem_append.mp hne
    cases p with
    | other l =>
      rw [Parted] at h
      rw [stretches, List.singleton_append, trees, place]
      cases hc : l.cls with
      | blank | comment =>
        rw [hc, if_neg (by rintro ⟨⟩)] at h
        exact ih hfits htexts (by simpa using h)
      | newline =>
        rw [hc, if_neg (by rintro ⟨⟩)] at h
        exact ih hfits htexts (by cases brk <;> simpa using h)
      | token k =>
        have hk : k = .operator .semicolon := by
          cases hp with
          | other hl => exact hl k hc
        subst hk
        rw [hc, if_pos rfl, Bool.or_eq_false_iff] at h
        obtain ⟨⟨rfl, hbreak⟩, hrest⟩ := h
        exact .semicolon rfl (by simpa using hbreak) (ih hfits htexts hrest)
    | spec name literal =>
      obtain ⟨n, t, htokens, hspec, hline, hnode⟩ := place_spec_part hp hstretch pos brk (code ps)
      rw [Parted] at h
      rw [htokens, trees, ← hnode]
      refine .spec hspec ?_ (ih hfits htexts h.2)
      rw [BeginsLine, hline]
      simpa [Option.isSome_iff_ne_none] using h.1

end Parts

theorem tree_moved (o n : Nat) (name : List Lexeme) (literal : Lexeme) :
    (tree o name literal).moved n = tree (o + n) name literal := by
  cases name <;> simp [tree, Tree.moved_node, Nat.add_right_comm, Nat.add_assoc, Nat.add_comm n]

theorem trees_moved (o n : Nat) (ps : List ImportPart) : (trees o ps).map (Tree.moved n) = trees (o + n) ps := by
  induction ps generalizing o with
  | nil => rfl
  | cons p ps ih =>
    cases p with
    | other l => rw [trees, trees, ih, Nat.add_right_comm]
    | spec name literal => rw [trees, trees, List.map_cons, ih, tree_moved, Nat.add_right_comm]

/-- The specs of parts lie in these, in order. -/
theorem nested_trees {ps : List ImportPart} (hps : ∀ p ∈ ps, p.Fits) (hne : ∀ l ∈ code ps, l.text ≠ []) (o : Nat) :
    Nested (fun _ => True) o (o + byteWidth (texts (code ps))) (trees o ps) := by
  induction ps generalizing o with
  | nil => exact Nat.le_refl o
  | cons p ps ih =>
    obtain ⟨hp, hfits⟩ := List.forall_mem_cons.mp hps
    rw [code_cons] at hne
    obtain ⟨hstretch, htexts⟩ := List.forall_mem_append.mp hne
    rw [code_cons, texts_append, byteWidth_append, ← Nat.add_assoc]
    have hrest := ih hfits htexts (o + byteWidth (texts p.stretches))
    cases p with
    | other l =>
      rw [stretches, texts_cons, texts_nil, List.append_nil] at hrest ⊢
      exact hrest.mono (Nat.le_add_right _ _) (Nat.le_refl _)
    | spec name literal =>
      have hpath : 0 < byteWidth literal.text := byteWidth_pos (hstretch literal (by simp [stretches]))
      suffices hone : Nested (fun _ => True) o (o + byteWidth (texts (spec name literal).stretches)) [tree o name literal] from
        hone.append hrest
      cases hp with
      | bare =>
        simp only [tree, Nested, Tree.NestedIn, Tree.stop, stretches]
        simp [Nested, Tree.NestedIn, Tree.stop]
        omega
      | @named n _ _ fill =>
        have hname : 0 < byteWidth n.text := byteWidth_pos (hstretch n (by simp [stretches]))
        simp only [tree, Nested, Tree.NestedIn, Tree.stop, stretches]
        simp [Nested, Tree.NestedIn, Tree.stop, byteWidth_append]
        omega

end ImportPart

/-! ## Imports in parentheses -/

namespace Segment

variable {g : Segment} {head : List Lexeme} {ps : List ImportPart} {z : Lexeme}

/-- The node of an import in parentheses. -/
def blockNode (head : List Lexeme) (ps : List ImportPart) (z : Lexeme) : Node :=
  let close := byteWidth (texts (head ++ ImportPart.code ps))
  .node .importDecl 0 (close + byteWidth z.text)
    (ImportPart.trees (byteWidth (texts head)) ps ++ [.node .closeParen close (close + byteWidth z.text) []])

/-- The tokens of an import in parentheses. -/
theorem place_block (h : IsImport head ps [z]) {l : Lexeme} {r : List Lexeme} {k : Kind} (hhead : head = l :: r)
    (hl : l.cls = .token k) (pos : Nat) (brk : Option Nat) : ∃ w o b,
    (place pos brk (head ++ (ImportPart.code ps ++ [z]))).tokens =
      w :: o :: ((place (pos + byteWidth (texts head)) none (ImportPart.code ps)).tokens ++
        [⟨.operator .rightParen, pos + byteWidth (texts (head ++ ImportPart.code ps)),
          pos + byteWidth (texts (head ++ ImportPart.code ps)) + byteWidth z.text, b⟩]) ∧
      k = .keyword .importK ∧ w.kind = .keyword .importK ∧ w.start = pos ∧ o.kind = .operator .leftParen := by
  cases h with
  | @block first o _ _ hfirst ho _ hz =>
    cases first with
    | nil => cases hfirst
    | cons m fill =>
      obtain ⟨rfl, rfl⟩ := List.cons.inj hhead
      rw [kindsOf, List.filterMap_cons_some (Lexeme.kind?_eq_some.mpr hl)] at hfirst
      obtain ⟨hk, hfill⟩ := List.cons.inj hfirst
      have hnone : NoCode fill := noCode_iff_kindsOf.mpr hfill
      have hopen : pos + byteWidth (texts (m :: fill ++ [o])) =
          pos + byteWidth m.text + byteWidth (texts fill) + byteWidth o.text := by
        simp [byteWidth_append, Nat.add_assoc]
      have hclose : pos + byteWidth (texts (m :: fill ++ [o] ++ ImportPart.code ps)) =
          pos + byteWidth (texts (m :: fill ++ [o])) + byteWidth (texts (ImportPart.code ps)) := by
        rw [texts_append, byteWidth_append, Nat.add_assoc]
      rw [hclose, hopen, List.append_assoc, List.cons_append, place_cons_of_token hl]
      dsimp only
      rw [place_append_tokens, hnone.tokens, List.nil_append, List.singleton_append, place_cons_of_token ho]
      dsimp only
      rw [place_append_tokens, place_cons_of_token hz]
      exact ⟨⟨k, pos, pos + byteWidth m.text, brk⟩, ⟨.operator .leftParen, _, _, _⟩, _, rfl, hk, hk, rfl, rfl⟩

/-- Rows of specs between parentheses are an import. -/
theorem isItem_block (h : IsImport head ps [z]) {l : Lexeme} {r : List Lexeme} {k : Kind} (hhead : head = l :: r)
    (hl : l.cls = .token k) (hsound : ∀ m ∈ head ++ (ImportPart.code ps ++ [z]), m.cls.isSound)
    (hne : ∀ m ∈ head ++ (ImportPart.code ps ++ [z]), m.text ≠ []) (hparted : ImportPart.Parted true ps)
    (gap : List Lexeme) : (⟨head ++ (ImportPart.code ps ++ [z]), blockNode head ps z, gap⟩ : Segment).IsItem := by
  have hfits := h.fits
  have htexts : ∀ m ∈ ImportPart.code ps, m.text ≠ [] := fun m hm => hne m (by simp [hm])
  have hz : 0 < byteWidth z.text := byteWidth_pos (hne z (by simp))
  have hopened : Label.importDecl ∈ openings.map Opening.label := by decide
  have hstop : byteWidth (texts (head ++ (ImportPart.code ps ++ [z]))) =
      byteWidth (texts (head ++ ImportPart.code ps)) + byteWidth z.text := by
    simp [byteWidth_append, Nat.add_assoc]
  refine ⟨⟨hopened, hsound, ?_, rfl, hstop.symm, ?_, ?_⟩, hne⟩
  · obtain ⟨-, -, -, -, rfl, -⟩ := place_block h hhead hl 0 none
    exact ⟨l, _, _, by rw [hhead]; rfl, hl, rfl⟩
  · have hspecs := (ImportPart.nested_trees hfits htexts (byteWidth (texts head))).mono (Nat.zero_le _) (Nat.le_refl _)
    rw [← byteWidth_append, ← texts_append] at hspecs
    rw [hstop]
    refine ⟨Nat.le_refl 0, ?_, Nat.le_refl _, trivial, trivial, hspecs.append ?_⟩
    · omega
    · simp only [Nested, Tree.NestedIn, Tree.stop, true_and]
      omega
  · intro F _ o b
    obtain ⟨w, p, b', htokens, -, hw, hstart, hp⟩ := place_block h hhead hl F.shift b
    have hgroup : IsGroup (place (F.shift + byteWidth (texts head)) none (ImportPart.code ps)).tokens
        (ImportPart.trees (F.shift + byteWidth (texts head)) ps) :=
      isGroup_iff_row.mpr (ImportPart.row_of_parted hfits htexts hparted)
    have hread := item?_group (o := o) (x := F.lastBreak) (r := F.rest) hw hp hgroup (z := ⟨.operator .rightParen,
      F.shift + byteWidth (texts (head ++ ImportPart.code ps)),
      F.shift + byteWidth (texts (head ++ ImportPart.code ps)) + byteWidth z.text, b'⟩) rfl (by dsimp only; omega)
      (by dsimp only; omega)
    dsimp only at hread ⊢
    rw [htokens]
    simp only [List.cons_append, List.append_assoc, List.nil_append] at hread ⊢
    rw [hread, hstart, blockNode, Tree.moved_node, List.map_append, ImportPart.trees_moved]
    simp [Tree.moved_node, Tree.stop, Nat.add_comm, Nat.add_left_comm]

/-- An import in parentheses declares the specs of its parts, if their paths can be read. -/
theorem exists_declared_block (h : ∀ p ∈ ps, p.Reads) (gap : List Lexeme) :
    ∃ d, (⟨head ++ (ImportPart.code ps ++ [z]), blockNode head ps z, gap⟩ : Segment).declared = .ok d ∧
      d.specs = ImportPart.imports ps := by
  obtain ⟨specs, hspecs⟩ := @ImportPart.exists_mapM_trees ps (texts head) (texts [z]) h
  have hdeclared := @declared_eq_of_parts ⟨head ++ (ImportPart.code ps ++ [z]), blockNode head ps z, gap⟩ head ps [z]
    rfl rfl rfl
  rw [hspecs] at hdeclared
  exact ⟨_, hdeclared, (ImportPart.mapM_trees hspecs).2.1⟩

/-- An import that can be read declares the specs of its parts. -/
theorem reads_of_declared {close : List Lexeme} (hlabel : g.node.label = .importDecl)
    (hcode : g.code = head ++ (ImportPart.code ps ++ close))
    (hchildren : g.node.children = ImportPart.trees (byteWidth (texts head)) ps ++
      closeTrees (byteWidth (texts (head ++ ImportPart.code ps))) close) {d : Declared} (h : g.declared = .ok d) :
    (∀ p ∈ ps, p.Reads) ∧ d.specs = ImportPart.imports ps := by
  rw [declared_eq_of_parts hlabel hcode hchildren] at h
  obtain ⟨specs, hspecs, rfl⟩ := exists_of_map_ok h
  obtain ⟨hreads, hnames, -⟩ := ImportPart.mapM_trees hspecs
  exact ⟨hreads, hnames⟩

/-- The parts of an import in parentheses are rows. -/
theorem IsItem.parted (hg : g.IsItem) (hlabel : g.node.label = .importDecl) (h : IsImport head ps [z]) {l : Lexeme}
    {r : List Lexeme} {k : Kind} (hhead : head = l :: r) (hl : l.cls = .token k)
    (hne : ∀ m ∈ ImportPart.code ps, m.text ≠ []) (hcode : ∀ pos brk, (place pos brk g.code).tokens =
      (place pos brk (head ++ (ImportPart.code ps ++ [z]))).tokens) : ImportPart.Parted true ps := by
  have hread := hg.declares.read ⟨0, [], none⟩ nofun 0 none
  obtain ⟨w, p, b, htokens, -, -, -, hp⟩ := place_block h hhead hl 0 none
  dsimp only at hread
  rw [hcode, htokens, List.append_nil] at hread
  obtain ⟨ts, z', ns, hts, hgroup, -⟩ := isGroup_of_item? hread (by rw [Tree.label_moved]; exact hlabel) hp
  obtain ⟨rfl, -⟩ := List.append_inj' hts rfl
  exact ImportPart.parted_of_row h.fits hne (isGroup_iff_row.mp hgroup)

end Segment

end Syntax

end GoSplice
