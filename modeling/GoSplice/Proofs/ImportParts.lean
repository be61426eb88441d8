import GoSplice.Proofs.Growth
import GoSplice.Proofs.OutlineFiles
import GoSplice.Proofs.Vocabulary

/-!
# The parts of imports

An import is its specs and single stretches between them, and what it declares
can be read off these parts:

    g.IsItem, an import → g.code = joined ps ++ close, where ps fit       (Segment.IsItem.exists_parts)
      and g declares the specs of ps                                      (declared_of_parts)
-/

namespace GoSplice

open Syntax

namespace Syntax

/-! ## Specs among tokens -/

/-- What a local name of an import can be. -/
def nameKinds : List Kind := [.operator .dot, .name, .constant, .allocator]

/-- The node of a spec with a local name, or without one. -/
def specNodeOf (name : Option Token) (path : Token) : Node :=
  .node .importSpec ((name.map Token.start).getD path.start) path.stop
    (name.toList.map (fun n => .node .importName n.start n.stop []) ++ [.node .importPath path.start path.stop []])

/-- The specs that tokens spell, with semicolons between them. -/
inductive Specs : List Token → List Node → Prop
  | nil : Specs [] []
  | semicolon {t : Token} {ts : List Token} {ns : List Node} :
      t.kind = .operator .semicolon → Specs ts ns → Specs (t :: ts) ns
  | spec {name : Option Token} {path : Token} {ts : List Token} {ns : List Node} :
      (∀ n ∈ name, n.kind ∈ nameKinds) → path.kind = .text → Specs ts ns →
      Specs (name.toList ++ path :: ts) (specNodeOf name path :: ns)

theorem Specs.append {ts us : List Token} {ns ms : List Node} (h : Specs ts ns) (h' : Specs us ms) :
    Specs (ts ++ us) (ns ++ ms) := by
  induction h with
  | nil => exact h'
  | semicolon ht _ ih => exact .semicolon ht ih
  | spec hname hpath _ ih =>
    rw [List.append_assoc, List.cons_append]
    exact .spec hname hpath ih

namespace Grammar

open Pattern

/-- Whether the matches of a pattern are specs. -/
def SpellsSpecs (p : P) : Prop :=
  ∀ c f, Matches rules p c f → ∃ ts, c.tokens.map Token.core = ts ++ f.place.tokens.map Token.core ∧
    Specs ts f.trees

section Spells

variable {p q : P}

theorem SpellsSpecs.seq (hp : SpellsSpecs p) (hq : SpellsSpecs q) : SpellsSpecs (.seq p q) := by
  intro c f h
  cases h with
  | seq h1 h2 =>
    obtain ⟨ts, hts, hs⟩ := hp _ _ h1
    obtain ⟨us, hus, hs'⟩ := hq _ _ h2
    exact ⟨ts ++ us, by rw [hts, hus, List.append_assoc], hs.append hs'⟩

theorem SpellsSpecs.alt (hp : SpellsSpecs p) (hq : SpellsSpecs q) : SpellsSpecs (.alt p q) := by
  intro c f h
  cases h with
  | altFirst h => exact hp _ _ h
  | altSecond h => exact hq _ _ h

theorem spellsSpecs_empty : SpellsSpecs .empty := by
  intro c f h
  cases h
  exact ⟨[], rfl, .nil⟩

theorem SpellsSpecs.star (hp : SpellsSpecs p) : SpellsSpecs (.star p) := by
  intro c f h
  generalize hq : Pattern.star p = q at h
  induction h with
  | starNil => exact ⟨[], rfl, .nil⟩
  | starCons h1 _ _ ih =>
    obtain rfl := Pattern.star.inj hq
    obtain ⟨ts, hts, hs⟩ := hp _ _ h1
    obtain ⟨us, hus, hs'⟩ := ih rfl
    exact ⟨ts ++ us, by rw [hts, hus, List.append_assoc], hs.append hs'⟩
  | _ => cases hq

theorem map_core_afterBreak (c : Place) (b : Nat) :
    (c.afterBreak b).tokens.map Token.core = c.tokens.map Token.core := by
  obtain ⟨o, ts, e⟩ := c
  cases ts <;> rfl

theorem spellsSpecs_terminator : SpellsSpecs terminator := by
  refine .alt (fun c f h => ?_) fun c f h => ?_
  · cases h
    exact ⟨[], (map_core_afterBreak _ _).symm, .nil⟩
  · cases h with
    | @token _ _ t r ht hk => exact ⟨[t.core], by rw [ht]; rfl, .semicolon (List.mem_singleton.mp hk) .nil⟩

end Spells

/-- Whether tokens can be a spec: a path, behind a local name if there is one. -/
structure IsSpec (name : Option Token) (path : Token) : Prop where
  isName : ∀ n ∈ name, n.kind ∈ nameKinds ∧ n.start < n.stop
  isPath : path.kind = .text ∧ path.start < path.stop
  range : (specNodeOf name path).start < path.stop

theorem isSpec_of_matches {c : Place} {f : Found Label} (h : Matches rules importSpec c f) :
    ∃ name path r, c.tokens = Option.toList name ++ path :: r ∧ IsSpec name path ∧
      f = ⟨[specNodeOf name path], ⟨path.stop, r, c.lastBreak⟩⟩ := by
  cases h with
  | node h ht hlt =>
    cases h with
    | altFirst h =>
      cases h with
      | seq hname hpath =>
        cases hname with
        | @node _ _ _ f₁ u s hname hu hrange =>
          obtain ⟨kinds, hkinds, htoken⟩ : ∃ kinds, (∀ k ∈ kinds, k ∈ nameKinds) ∧
              Matches rules (.token kinds) c f₁ := by
            cases hname with
            | altFirst h => exact ⟨_, by decide, h⟩
            | altSecond h => exact ⟨_, by decide, h⟩
          cases htoken with
          | @token _ _ n r hn hk =>
            rw [hn] at hu ht
            obtain ⟨rfl, -⟩ := List.cons.inj hu
            obtain ⟨rfl, -⟩ := List.cons.inj ht
            cases hpath with
            | node hpath hv hrange' =>
              cases hpath with
              | @token _ _ p r' hp hk' =>
                dsimp only at hp hv
                rw [hp] at hv
                obtain ⟨rfl, -⟩ := List.cons.inj hv
                refine ⟨some n, p, r', by rw [hn, hp]; rfl, ⟨?_, ⟨List.mem_singleton.mp hk', hrange'⟩, hlt⟩, rfl⟩
                rintro _ ⟨⟩
                exact ⟨hkinds _ hk, hrange⟩
    | altSecond h =>
      cases h with
      | node hpath hv hrange' =>
        cases hpath with
        | @token _ _ p r hp hk =>
          rw [hp] at hv ht
          obtain ⟨rfl, -⟩ := List.cons.inj hv
          obtain ⟨rfl, -⟩ := List.cons.inj ht
          exact ⟨none, p, r, hp, ⟨nofun, ⟨List.mem_singleton.mp hk, hrange'⟩, hlt⟩, rfl⟩

/-- A spec is a path, and a local name before it if there is one. -/
theorem tokens_of_importSpec {c : Place} {f : Found Label} (h : Matches rules importSpec c f) :
    ∃ name path, c.tokens.map Token.core = Option.toList name ++ path :: f.place.tokens.map Token.core ∧
      (∀ n ∈ name, n.kind ∈ nameKinds) ∧ path.kind = .text ∧ f.trees = [specNodeOf name path] := by
  obtain ⟨name, path, r, hr, hspec, rfl⟩ := isSpec_of_matches h
  refine ⟨name.map Token.core, path.core, ?_, fun n hn => ?_, hspec.isPath.1, ?_⟩
  · rw [hr]
    cases name <;> simp
  · obtain ⟨m, hm, rfl⟩ := Option.map_eq_some_iff.mp hn
    exact (hspec.isName m hm).1
  · cases name <;> rfl

theorem spellsSpecs_importSpec : SpellsSpecs importSpec := by
  intro c f h
  obtain ⟨name, path, hc, hname, hpath, htrees⟩ := tokens_of_importSpec h
  refine ⟨name.toList ++ [path], by rw [hc]; simp, ?_⟩
  rw [htrees]
  exact .spec hname hpath .nil

theorem spellsSpecs_body : SpellsSpecs (body importSpec) :=
  .alt (.seq spellsSpecs_importSpec (.seq (.star (.seq spellsSpecs_terminator spellsSpecs_importSpec))
    (.alt spellsSpecs_terminator spellsSpecs_empty))) spellsSpecs_empty

/-- The tokens of an import: its word, and one spec or specs in parentheses. -/
inductive ImportTokens : List Token → List Node → Prop
  | single {w path : Token} {name : Option Token} : w.kind = .keyword .importK → (∀ n ∈ name, n.kind ∈ nameKinds) →
      path.kind = .text → ImportTokens (w :: (name.toList ++ [path])) [specNodeOf name path]
  | block {w o z : Token} {ts : List Token} {ns : List Node} : w.kind = .keyword .importK →
      o.kind = .operator .leftParen → Specs ts ns → z.kind = .operator .rightParen →
      ImportTokens (w :: o :: (ts ++ [z])) (ns ++ [.node .closeParen z.start z.stop []])

theorem importTokens_of_matches {c : Place} {f : Found Label} (h : Matches rules importDeclaration c f)
    (hend : f.place.tokens = []) : ImportTokens (c.tokens.map Token.core) f.trees := by
  cases h with
  | seq hw h =>
    cases hw with
    | @token _ _ w r hc hw =>
      have hw : w.core.kind = .keyword .importK := List.mem_singleton.mp hw
      cases h with
      | altFirst h =>
        cases h with
        | seq ho h =>
          cases ho with
          | @token _ _ o r' hr ho =>
            have ho : o.core.kind = .operator .leftParen := List.mem_singleton.mp ho
            cases h with
            | seq hbody hclose =>
              obtain ⟨ts, hts, hspecs⟩ := spellsSpecs_body _ _ hbody
              cases hclose with
              | node hclose hz _ =>
                cases hclose with
                | @token _ _ z r'' hz' hk =>
                  rw [hz'] at hz
                  obtain ⟨rfl, -⟩ := List.cons.inj hz
                  dsimp only at hr hend hts
                  subst hend
                  rw [hz'] at hts
                  rw [hc, List.map_cons, hr, List.map_cons, hts]
                  exact @ImportTokens.block _ _ z.core _ _ hw ho hspecs (List.mem_singleton.mp hk)
      | altSecond h =>
        obtain ⟨name, path, hr, hname, hpath, htrees⟩ := tokens_of_importSpec h
        rw [hend] at hr
        dsimp only at hr
        rw [hc, List.map_cons, hr, htrees]
        exact .single hw hname hpath

theorem importTokens_of_item {c d : Place} {n : Node} (h : Matches rules item c ⟨[n], d⟩) (hl : n.label = .importDecl)
    (hd : d.tokens = []) : ImportTokens (c.tokens.map Token.core) n.children := by
  obtain ⟨p, hp, hm⟩ := Matches.of_any h
  simp only [List.mem_cons, List.not_mem_nil, or_false] at hp
  rcases hp with rfl | rfl | rfl | rfl | rfl
  · cases hm
    cases hl
  · cases hm with
    | node hm _ _ => exact importTokens_of_matches hm hd
  · cases hm
    cases hl
  · cases hm
    cases hl
  · cases hm with
    | rule hm =>
      have hs : Grammar.statement.Emits (· ≠ .importDecl) := by
        simp [Grammar.statement, Pattern.any, Pattern.Emits, Grammar.simple]
      exact absurd hl (hm.label hs n List.mem_cons_self)

end Grammar

/-! ## Parts of stretches -/

/-- A part of an import: a stretch that belongs to no spec, or a spec, that is its local name with
what is behind it, and its path. -/
inductive ImportPart where
  | other (l : Lexeme)
  | spec (name : List Lexeme) (literal : Lexeme)

namespace ImportPart

def stretches : ImportPart → List Lexeme
  | .other l => [l]
  | .spec name literal => name ++ [literal]

/-- Whether a part is what it stands for. -/
inductive Fits : ImportPart → Prop
  | other {l : Lexeme} : (∀ k, l.cls = .token k → k = .operator .semicolon) → Fits (.other l)
  | bare {literal : Lexeme} : literal.cls = .token .text → Fits (.spec [] literal)
  | named {n literal : Lexeme} {k : Kind} {fill : List Lexeme} : n.cls = .token k → k ∈ nameKinds → NoCode fill →
      literal.cls = .token .text → Fits (.spec (n :: fill) literal)

/-- The stretches of parts, one behind the other. -/
def code (ps : List ImportPart) : List Lexeme := ps.flatMap stretches

@[simp] theorem code_nil : code [] = [] := rfl

@[simp] theorem code_cons (p : ImportPart) (ps : List ImportPart) : code (p :: ps) = p.stretches ++ code ps := rfl

@[simp] theorem code_append (ps qs : List ImportPart) : code (ps ++ qs) = code ps ++ code qs :=
  List.flatMap_append

theorem code_others (ls : List Lexeme) : code (ls.map other) = ls := by
  induction ls with
  | nil => rfl
  | cons l ls ih => exact congrArg (l :: ·) ih

theorem fits_others {ls : List Lexeme} (h : NoCode ls) : ∀ p ∈ ls.map other, p.Fits :=
  List.forall_mem_map.mpr fun l hl => .other fun k hk => absurd hk (h l hl k)

/-- The node of a spec at an offset. -/
def tree (o : Nat) (name : List Lexeme) (literal : Lexeme) : Node :=
  .node .importSpec o (o + byteWidth (texts (name ++ [literal])))
    (name.head?.toList.map (fun n => .node .importName o (o + byteWidth n.text) []) ++
      [.node .importPath (o + byteWidth (texts name)) (o + byteWidth (texts (name ++ [literal]))) []])

/-- The nodes of the specs among parts that begin at an offset. -/
def trees (o : Nat) : List ImportPart → List Node
  | [] => []
  | .other l :: ps => trees (o + byteWidth l.text) ps
  | .spec name literal :: ps =>
    tree o name literal :: trees (o + byteWidth (texts (name ++ [literal]))) ps

theorem trees_others (o : Nat) (ls : List Lexeme) (ps : List ImportPart) :
    trees o (ls.map other ++ ps) = trees (o + byteWidth (texts ls)) ps := by
  induction ls generalizing o with
  | nil => rfl
  | cons l ls ih =>
    rw [List.map_cons, List.cons_append, trees, ih, texts_cons, byteWidth_append, Nat.add_assoc]

end ImportPart

/-- The tokens of stretches that begin with one behind some without code. -/
theorem place_behind {x y : List Lexeme} {l : Lexeme} {k : Kind} (hx : NoCode x) (hl : l.cls = .token k) (pos : Nat)
    (b : Option Nat) : (place pos b (x ++ l :: y)).tokens.map Token.core =
      ⟨k, pos + byteWidth (texts x), pos + byteWidth (texts (x ++ [l])), none⟩ ::
        (place (pos + byteWidth (texts (x ++ [l]))) none y).tokens.map Token.core := by
  rw [place_append_tokens, hx.tokens, List.nil_append, place_cons_of_token hl]
  simp only [texts_append, texts_cons, texts_nil, List.append_nil, byteWidth_append, ← Nat.add_assoc]
  rfl

/-- The first token of stretches. -/
theorem exists_first {pos : Nat} {b : Option Nat} {ls : List Lexeme} {t : Token} {ts : List Token}
    (h : (place pos b ls).tokens.map Token.core = t :: ts) : ∃ x l y, ls = x ++ l :: y ∧ NoCode x ∧
      l.cls = .token t.kind ∧ t.start = pos + byteWidth (texts x) ∧ t.stop = pos + byteWidth (texts (x ++ [l])) ∧
      (place (pos + byteWidth (texts (x ++ [l]))) none y).tokens.map Token.core = ts := by
  obtain ⟨u, us, hus, rfl, -⟩ := List.map_eq_cons_iff.mp h
  obtain ⟨x, l, y, rfl, hx, hl, -⟩ := place_eq_cons hus
  rw [place_behind hx hl, List.cons.injEq] at h
  obtain ⟨hu, hts⟩ := h
  exact ⟨x, l, y, rfl, hx, hl, by rw [← hu], by rw [← hu], hts⟩

namespace ImportPart

/-- Stretches whose tokens are specs are parts with these specs. -/
theorem exists_of_specs {ts : List Token} {ns : List Node} (h : Specs ts ns) {pos : Nat} {b : Option Nat}
    {ls : List Lexeme} (hls : (place pos b ls).tokens.map Token.core = ts) :
    ∃ ps, ls = ImportPart.code ps ∧ (∀ p ∈ ps, p.Fits) ∧ ns = ImportPart.trees pos ps := by
  induction h generalizing pos b ls with
  | nil =>
    have hnone : NoCode ls := (noCode_iff pos b).mpr (List.map_eq_nil_iff.mp hls)
    refine ⟨ls.map other, (code_others ls).symm, fits_others hnone, ?_⟩
    rw [← List.append_nil (ls.map other), trees_others]
    rfl
  | semicolon ht _ ih =>
    obtain ⟨x, l, y, rfl, hx, hl, -, -, hy⟩ := exists_first hls
    obtain ⟨ps, rfl, hps, htrees⟩ := ih hy
    refine ⟨x.map other ++ other l :: ps, by rw [code_append, code_others]; rfl, ?_, ?_⟩
    · refine List.forall_mem_append.mpr ⟨fits_others hx, List.forall_mem_cons.mpr ⟨.other fun k hk => ?_, hps⟩⟩
      rw [hl, ht] at hk
      exact (LexemeClass.token.inj hk).symm
    · rw [trees_others, trees, htrees, texts_append, byteWidth_append, ← Nat.add_assoc]
      simp
  | @spec name path ts ns hname hpath _ ih =>
    cases name with
    | none =>
      obtain ⟨x, l, y, rfl, hx, hl, hstart, hstop, hy⟩ := exists_first hls
      obtain ⟨ps, rfl, hps, htrees⟩ := ih hy
      refine ⟨x.map other ++ spec [] l :: ps, by rw [code_append, code_others]; rfl,
        List.forall_mem_append.mpr ⟨fits_others hx, List.forall_mem_cons.mpr ⟨.bare (hl.trans (congrArg _ hpath)), hps⟩⟩, ?_⟩
      rw [trees_others, trees, htrees, List.nil_append]
      rw [texts_append, byteWidth_append, ← Nat.add_assoc] at hstop ⊢
      simp [specNodeOf, tree, hstart, hstop]
    | some n =>
      obtain ⟨x, l, y, rfl, hx, hl, hstart, hstop, hy⟩ := exists_first hls
      obtain ⟨fill, m, z, rfl, hfill, hm, hstart', hstop', hz⟩ := exists_first hy
      obtain ⟨ps, rfl, hps, htrees⟩ := ih hz
      refine ⟨x.map other ++ spec (l :: fill) m :: ps, by rw [code_append, code_others]; simp [stretches],
        List.forall_mem_append.mpr ⟨fits_others hx,
          List.forall_mem_cons.mpr ⟨.named hl (hname n rfl) hfill (hm.trans (congrArg _ hpath)), hps⟩⟩, ?_⟩
      rw [trees_others, trees, htrees]
      simp only [texts_append, texts_cons, texts_nil, List.append_nil, byteWidth_append, ← Nat.add_assoc, List.cons_append]
        at hstart hstop hstart' hstop' ⊢
      simp [specNodeOf, tree, hstart, hstop, hstart', hstop', Nat.add_assoc]

end ImportPart

/-! ## Imports as parts -/

/-- The kinds of the tokens of an import: one spec, or some in parentheses. -/
inductive ImportKinds : List Kind → Prop
  | single {ns : List Kind} : (∀ n ∈ ns, n ∈ nameKinds) → ImportKinds (.keyword .importK :: (ns ++ [.text]))
  | block {ms : List Kind} : .operator .rightParen ∉ ms →
      ImportKinds (.keyword .importK :: .operator .leftParen :: (ms ++ [.operator .rightParen]))

/-- Whether stretches, parts behind them and a parenthesis behind these, if there is one, are an import. -/
inductive IsImport : List Lexeme → List ImportPart → List Lexeme → Prop
  | single {head : List Lexeme} {ps : List ImportPart} {ns : List Kind} : kindsOf head = [.keyword .importK] →
      (∀ p ∈ ps, p.Fits) → (∀ n ∈ ns, n ∈ nameKinds) → kindsOf (ImportPart.code ps) = ns ++ [.text] →
      IsImport head ps []
  | block {head : List Lexeme} {o z : Lexeme} {ps : List ImportPart} : kindsOf head = [.keyword .importK] →
      o.cls = .token (.operator .leftParen) → (∀ p ∈ ps, p.Fits) → z.cls = .token (.operator .rightParen) →
      IsImport (head ++ [o]) ps [z]

theorem IsImport.fits {head close : List Lexeme} {ps : List ImportPart} (h : IsImport head ps close) : ∀ p ∈ ps, p.Fits := by
  cases h with
  | single _ hps _ _ => exact hps
  | block _ _ hps _ => exact hps

/-- Between the parentheses of an import can stand other parts. -/
theorem IsImport.withParts {head : List Lexeme} {z : Lexeme} {ps qs : List ImportPart} (h : IsImport head ps [z])
    (hqs : ∀ q ∈ qs, q.Fits) : IsImport head qs [z] := by
  cases h with
  | block hhead ho _ hz => exact .block hhead ho hqs hz

/-- The node of the parenthesis that closes an import. -/
def closeTrees (o : Nat) (close : List Lexeme) : List Node :=
  close.map fun z => .node .closeParen o (o + byteWidth z.text) []

theorem kindsOf_eq_map {pos : Nat} {b : Option Nat} {ls : List Lexeme} {ts : List Token}
    (h : (place pos b ls).tokens.map Token.core = ts) : kindsOf ls = ts.map Token.kind := by
  rw [← h, ← place_kinds pos b, List.map_map]
  rfl

theorem last_of_append {α : Type} {a b c : List α} {x : α} (h : a ++ b = c ++ [x]) (hb : b ≠ []) :
    ∃ d, b = d ++ [x] := by
  obtain ⟨d, y, rfl⟩ := (List.eq_nil_or_concat b).resolve_left hb
  rw [List.concat_eq_append, ← List.append_assoc] at h
  obtain ⟨-, hy⟩ := List.append_inj' h rfl
  exact ⟨d, by rw [List.concat_eq_append, hy]⟩

theorem kindsOf_singleton {l : Lexeme} {k : Kind} (hl : l.cls = .token k) : kindsOf [l] = [k] := by
  rw [kindsOf, List.filterMap_cons_some (Lexeme.kind?_eq_some.mpr hl)]
  rfl

theorem kindsOf_head {x : List Lexeme} {l : Lexeme} {k : Kind} (hx : NoCode x) (hl : l.cls = .token k) :
    kindsOf (x ++ [l]) = [k] := by
  rw [kindsOf_append, noCode_iff_kindsOf.mp hx, kindsOf_singleton hl]
  rfl

/-- The item of an import is its parts, and their specs are its children. -/
theorem Segment.IsItem.exists_parts {g : Segment} (h : g.IsItem) (hl : g.node.label = .importDecl) :
    ∃ head ps close, g.code = head ++ (ImportPart.code ps ++ close) ∧ IsImport head ps close ∧
      g.node.children = ImportPart.trees (byteWidth (texts head)) ps ++
        closeTrees (byteWidth (texts (head ++ ImportPart.code ps))) close := by
  have htokens : Grammar.ImportTokens ((place 0 none g.code).tokens.map Token.core) g.node.children := by
    have hm := matches_of_item? (h.declares.read ⟨0, [], none⟩ nofun 0 none)
    rw [Tree.moved_zero] at hm
    have hts := Grammar.importTokens_of_item hm hl rfl
    rwa [List.append_nil] at hts
  obtain ⟨c, m, j, hcode, hm⟩ := h.declares.last h.nonempty
  generalize htrees : g.node.children = ns at htokens
  generalize hts : (place 0 none g.code).tokens.map Token.core = us at htokens
  cases htokens with
  | @single w path name hw hname hpath =>
    have hkinds := kindsOf_eq_map hts
    obtain ⟨x, l, y, hxy, hx, hl, -, -, hy⟩ := exists_first hts
    obtain ⟨ps, rfl, hps, htree⟩ := ImportPart.exists_of_specs (.spec hname hpath .nil) hy
    have hhead := kindsOf_head hx (hl.trans (congrArg _ hw))
    refine ⟨x ++ [l], ps, [], by rw [hxy]; simp, ?_, ?_⟩
    · refine @IsImport.single _ _ (name.toList.map Token.kind) hhead hps ?_ ?_
      · exact List.forall_mem_map.mpr fun n hn => hname n (Option.mem_toList.mp hn)
      · rw [hxy, List.append_cons, kindsOf_append, hhead, List.map_cons, hw, List.map_append, List.map_cons, hpath] at hkinds
        exact (List.cons.inj hkinds).2
    · rw [htree]
      simp [closeTrees]
  | @block w o z ts ns hw ho hspecs hz =>
    obtain ⟨x, l, r, hxr, hx, hl, -, -, hr⟩ := exists_first hts
    obtain ⟨x', l', r', rfl, hx', hl', -, -, hr'⟩ := exists_first hr
    -- the last token is the parenthesis, and the last stretch is a token
    obtain ⟨y, rfl⟩ := last_of_append (a := x ++ l :: (x' ++ [l'])) (b := r') (by
      rw [← hcode, hxr]
      simp) (by
      rintro rfl
      simp [place] at hr')
    rw [place_append_tokens, place_cons_of_token hm, List.map_append] at hr'
    obtain ⟨hy, hlast⟩ := List.append_inj' hr' rfl
    obtain rfl : _ = z := (List.cons.inj hlast).1
    obtain ⟨ps, rfl, hps, htree⟩ := ImportPart.exists_of_specs hspecs hy
    have hhead : kindsOf (x ++ [l] ++ x') = [.keyword .importK] := by
      rw [kindsOf_append, kindsOf_head hx (hl.trans (congrArg _ hw)), noCode_iff_kindsOf.mp hx']
      rfl
    refine ⟨x ++ [l] ++ x' ++ [l'], ps, [m], by rw [hxr]; simp, ?_, ?_⟩
    · exact .block hhead (hl'.trans (congrArg _ ho)) hps (hm.trans (congrArg _ hz))
    · rw [htree]
      simp only [texts_append, texts_cons, texts_nil, List.append_nil, byteWidth_append, closeTrees, List.map_cons,
        List.map_nil]
      simp [Token.core, Nat.add_assoc]

/-! ## What imports declare -/

/-- The path that a literal spells. -/
def Lexeme.path (l : Lexeme) : String := String.ofList ((ImportPath.ofLiteral? l.text).getD [])

/-- The paths of specs among parts that begin at an offset, and where these specs are. -/
def ImportPart.specs (o : Nat) : List ImportPart → List (String × Nat × Nat)
  | [] => []
  | .other l :: ps => specs (o + byteWidth l.text) ps
  | .spec name literal :: ps =>
    (literal.path, o, o + byteWidth (texts (name ++ [literal]))) ::
      specs (o + byteWidth (texts (name ++ [literal]))) ps

theorem ImportPart.label_trees (o : Nat) (ps : List ImportPart) : ∀ t ∈ trees o ps, t.label = .importSpec := by
  induction ps generalizing o with
  | nil => exact List.forall_mem_nil _
  | cons p ps ih =>
    cases p with
    | other l => exact ih _
    | spec name literal => exact List.forall_mem_cons.mpr ⟨rfl, ih _⟩

/-- The path of a spec is read off its literal. -/
theorem ImportPart.childText_tree {x y : List Char} (name : List Lexeme) (literal : Lexeme) :
    Declaration.childText (Utf8.encode (x ++ texts (name ++ [literal]) ++ y)) .importPath
      (tree (byteWidth x) name literal) = String.ofList literal.text := by
  have hpath : Declaration.nodeText (Utf8.encode (x ++ texts (name ++ [literal]) ++ y))
      (.node .importPath (byteWidth x + byteWidth (texts name)) (byteWidth x + byteWidth (texts (name ++ [literal]))) []) =
      String.ofList literal.text := by
    have hsplit : x ++ texts (name ++ [literal]) ++ y = (x ++ texts name) ++ literal.text ++ y := by
      simp
    show textOf (slice _ (byteWidth x + byteWidth (texts name)) (byteWidth x + byteWidth (texts (name ++ [literal])))) = _
    rw [hsplit, show byteWidth x + byteWidth (texts name) = byteWidth (x ++ texts name) by rw [byteWidth_append],
      show byteWidth x + byteWidth (texts (name ++ [literal])) = byteWidth (x ++ texts name ++ literal.text) by
        simp [byteWidth_append], slice_encode, textOf_encode]
  have hchildren : (tree (byteWidth x) name literal).children.filter ([Label.importPath].contains ·.label) =
      [.node .importPath (byteWidth x + byteWidth (texts name)) (byteWidth x + byteWidth (texts (name ++ [literal]))) []] := by
    cases name <;> rfl
  rw [Declaration.childText, Declaration.childTexts, hchildren, List.map_singleton, hpath]
  rfl

/-- The local name of a spec is read off its first stretch. -/
theorem ImportPart.childText_name {x y : List Char} (name : List Lexeme) (literal : Lexeme) :
    Declaration.childText (Utf8.encode (x ++ texts (name ++ [literal]) ++ y)) .importName
      (tree (byteWidth x) name literal) = String.ofList ((name.head?.map Lexeme.text).getD []) := by
  cases name with
  | nil => rfl
  | cons n fill =>
    have hsplit : x ++ texts (n :: fill ++ [literal]) ++ y = x ++ n.text ++ (texts (fill ++ [literal]) ++ y) := by
      simp
    have htext : Declaration.nodeText (Utf8.encode (x ++ texts (n :: fill ++ [literal]) ++ y))
        (.node .importName (byteWidth x) (byteWidth x + byteWidth n.text) []) = String.ofList n.text := by
      show textOf (slice _ (byteWidth x) (byteWidth x + byteWidth n.text)) = _
      rw [hsplit, ← byteWidth_append, slice_encode, textOf_encode]
    exact htext

/-- The names and paths of the specs among parts. -/
def ImportPart.imports : List ImportPart → List (String × String)
  | [] => []
  | .other _ :: ps => imports ps
  | .spec name literal :: ps => (String.ofList ((name.head?.map Lexeme.text).getD []), literal.path) :: imports ps

theorem ImportPart.imports_append (ps qs : List ImportPart) : imports (ps ++ qs) = imports ps ++ imports qs := by
  induction ps with
  | nil => rfl
  | cons p ps ih =>
    cases p with
    | other l => exact ih
    | spec name literal => exact congrArg (_ :: ·) ih

/-- Whether the path of a part can be read, if it is a spec. -/
def ImportPart.Reads : ImportPart → Prop
  | .other _ => True
  | .spec _ literal => ImportPath.ofLiteral? literal.text ≠ none

/-- A spec whose path can be read declares that under its name. -/
theorem ImportPart.importSpecOf_eq_ok {x y : List Char} {name : List Lexeme} {literal : Lexeme} {spec : ImportSpec} :
    Declaration.importSpecOf (Utf8.encode (x ++ texts (name ++ [literal]) ++ y)) (tree (byteWidth x) name literal) =
        .ok spec ↔
      (ImportPart.spec name literal).Reads ∧ spec = ⟨String.ofList ((name.head?.map Lexeme.text).getD []), literal.path,
        byteWidth x, byteWidth x + byteWidth (texts (name ++ [literal]))⟩ := by
  rw [Declaration.importSpecOf, childText_tree, childText_name, String.toList_ofList, Reads, Lexeme.path]
  cases ImportPath.ofLiteral? literal.text with
  | none => simp
  | some path =>
    simp only [Except.ok.injEq, ne_eq, reduceCtorEq, not_false_eq_true, true_and, Option.getD_some]
    exact eq_comm

section Trees

variable {ps : List ImportPart} {x y : List Char}

/-- The specs of an import are those of its parts, with their names. -/
theorem ImportPart.mapM_trees {specs : List ImportSpec}
    (h : (trees (byteWidth x) ps).mapM (Declaration.importSpecOf (Utf8.encode (x ++ texts (code ps) ++ y))) = .ok specs) :
    (∀ p ∈ ps, p.Reads) ∧ specs.map (fun s => (s.name, s.path)) = imports ps ∧
      specs.map (fun s => (s.path, s.start, s.stop)) = ImportPart.specs (byteWidth x) ps := by
  induction ps generalizing x specs with
  | nil =>
    cases h
    exact ⟨List.forall_mem_nil _, rfl, rfl⟩
  | cons p ps ih =>
    rw [code_cons, texts_append, ← List.append_assoc] at h
    rw [List.forall_mem_cons]
    cases p with
    | other l =>
      rw [trees, ← byteWidth_append] at h
      rw [ImportPart.specs, ← byteWidth_append, imports, Reads, true_and]
      rw [stretches, texts_cons, texts_nil, List.append_nil] at h
      exact ih h
    | spec name literal =>
      rw [trees, ← byteWidth_append] at h
      obtain ⟨s, ss, hs, hss, rfl⟩ := mapM_cons_eq_ok h
      obtain ⟨hreads, hnames, hranges⟩ := ih hss
      rw [List.append_assoc] at hs
      obtain ⟨hread, rfl⟩ := importSpecOf_eq_ok.mp hs
      refine ⟨⟨hread, hreads⟩, ?_, ?_⟩
      · rw [List.map_cons, hnames, imports]
      · rw [List.map_cons, hranges, ImportPart.specs, ← byteWidth_append]
        rfl

/-- Specs are declared if all their paths can be read. -/
theorem ImportPart.exists_mapM_trees (h : ∀ p ∈ ps, p.Reads) : ∃ specs, (trees (byteWidth x) ps).mapM
    (Declaration.importSpecOf (Utf8.encode (x ++ texts (code ps) ++ y))) = .ok specs := by
  induction ps generalizing x with
  | nil => exact ⟨[], rfl⟩
  | cons p ps ih =>
    obtain ⟨hp, hps⟩ := List.forall_mem_cons.mp h
    obtain ⟨specs, hspecs⟩ := @ih (x ++ texts p.stretches) hps
    rw [List.append_assoc x, ← texts_append, ← code_cons] at hspecs
    cases p with
    | other l =>
      rw [trees, ← byteWidth_append]
      rw [stretches, texts_cons, texts_nil, List.append_nil] at hspecs
      exact ⟨specs, hspecs⟩
    | spec name literal =>
      have hone := (@importSpecOf_eq_ok x (texts (code ps) ++ y) name literal _).mpr ⟨hp, rfl⟩
      rw [show x ++ texts (name ++ [literal]) ++ (texts (code ps) ++ y) =
        x ++ texts (code (spec name literal :: ps)) ++ y by simp [stretches]] at hone
      rw [stretches] at hspecs
      rw [trees, ← byteWidth_append, List.mapM_cons, hone, hspecs]
      exact ⟨_, rfl⟩

end Trees

/-- What an import declares are the specs of its parts. -/
theorem Segment.declared_eq_of_parts {g : Segment} {head : List Lexeme} {ps : List ImportPart} {close : List Lexeme}
    (hl : g.node.label = .importDecl) (hcode : g.code = head ++ (ImportPart.code ps ++ close))
    (hchildren : g.node.children = ImportPart.trees (byteWidth (texts head)) ps ++
      closeTrees (byteWidth (texts (head ++ ImportPart.code ps))) close) :
    g.declared = ((ImportPart.trees (byteWidth (texts head)) ps).mapM (Declaration.importSpecOf
      (Utf8.encode (texts head ++ texts (ImportPart.code ps) ++ texts close)))).map
        (.imports · (close.head?.map fun _ => byteWidth (texts (head ++ ImportPart.code ps)))) := by
  have hspecs : Declaration.withLabel .importSpec g.node = ImportPart.trees (byteWidth (texts head)) ps := by
    rw [Declaration.withLabel, hchildren, List.filter_append, List.filter_eq_self.mpr, List.filter_eq_nil_iff.mpr,
      List.append_nil]
    · simp [closeTrees, Tree.label]
    · intro t ht
      rw [ImportPart.label_trees _ ps t ht]
      rfl
  have hclose : (Declaration.withLabel .closeParen g.node).head?.map (·.start) =
      close.head?.map fun _ => byteWidth (texts (head ++ ImportPart.code ps)) := by
    rw [Declaration.withLabel, hchildren, List.filter_append, List.filter_eq_nil_iff.mpr, List.nil_append]
    · cases close <;> rfl
    · intro t ht
      rw [ImportPart.label_trees _ ps t ht]
      decide
  rw [Segment.declared, Declaration.declaredBy, hl]
  dsimp only
  rw [hspecs, hclose, hcode, texts_append, texts_append, ← List.append_assoc]
  cases (ImportPart.trees (byteWidth (texts head)) ps).mapM (Declaration.importSpecOf
    (Utf8.encode (texts head ++ texts (ImportPart.code ps) ++ texts close))) <;> rfl

/-- The ranges of what an import declares are those of its parts. -/
theorem Segment.declared_of_parts {g : Segment} {head : List Lexeme} {ps : List ImportPart} {close : List Lexeme}
    {d : Declared} (hl : g.node.label = .importDecl) (hcode : g.code = head ++ (ImportPart.code ps ++ close))
    (hchildren : g.node.children = ImportPart.trees (byteWidth (texts head)) ps ++
      closeTrees (byteWidth (texts (head ++ ImportPart.code ps))) close)
    (h : g.declared = .ok d) :
    ∃ specs, d = .imports specs (close.head?.map fun _ => byteWidth (texts (head ++ ImportPart.code ps))) ∧
      specs.map (fun s => (s.path, s.start, s.stop)) = ImportPart.specs (byteWidth (texts head)) ps := by
  rw [declared_eq_of_parts hl hcode hchildren] at h
  obtain ⟨specs, hspecs, rfl⟩ := exists_of_map_ok h
  exact ⟨specs, rfl, (ImportPart.mapM_trees hspecs).2.2⟩

end Syntax

end GoSplice
