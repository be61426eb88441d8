import GoSplice.Proofs.Commutation
import GoSplice.Proofs.UsableNames

/-!
# Names that specs bind

A spec of a `const` or `var` declaration begins with the names it binds, separated by commas.  Read off the tokens
of the specs, they are the names of the declaration, with the commas between them in a `const` spec:

    listedNames (n₁ , n₂ , … nₖ rest) = [n₁, n₂, … nₖ]                                      (listedNames_eq)
    d ∈ f.declarations → d.declared = value kind names →
      names = (f.bound d).flatMap (listing kind)                                    (Parsed.names_eq_bound)
-/

namespace GoSplice

open Syntax

/-! ## Nodes and first tokens of patterns -/

namespace Syntax

section Tables

variable {R L : Type} (labels : L → Bool) (ok : Kind → Bool) (rules : R → Bool)

/-- Whether matches of a pattern yield nodes with some labels only, given the rules of which this is so. -/
def Pattern.yieldsOnly : Pattern R L → Bool
  | .seq p q | .alt p q => p.yieldsOnly && q.yieldsOnly
  | .star p => p.yieldsOnly
  | .rule r => rules r
  | .node l _ => labels l
  | _ => true

/-- Whether matches of a pattern begin with a token of some kinds, given the rules of which this is so. -/
def Pattern.opensWith : Pattern R L → Bool
  | .token kinds => kinds.all ok
  | .seq p _ => p.opensWith
  | .alt p q => p.opensWith && q.opensWith
  | .rule r => rules r
  | .node _ p | .hidden p => p.opensWith
  | _ => false

end Tables

section Tables

variable {R L : Type} {g : R → Pattern R L} {labels : L → Bool} {ok : Kind → Bool} {rules : R → Bool}
  {p : Pattern R L} {c : Place} {f : Found L}

theorem Matches.yieldsOnly (hg : ∀ r, rules r → (g r).yieldsOnly labels rules) (h : Matches g p c f)
    (hp : p.yieldsOnly labels rules) : ∀ t ∈ f.trees, labels t.label := by
  induction h with
  | empty | token _ _ | sameLine _ | lineEnd _ | starNil | hidden _ _ | ahead _ _ | absent => exact List.forall_mem_nil _
  | seq _ _ ih1 ih2 =>
    rw [Pattern.yieldsOnly, Bool.and_eq_true] at hp
    exact List.forall_mem_append.mpr ⟨ih1 hp.1, ih2 hp.2⟩
  | starCons _ _ ih1 ih2 => exact List.forall_mem_append.mpr ⟨ih1 hp, ih2 hp⟩
  | altFirst _ ih =>
    rw [Pattern.yieldsOnly, Bool.and_eq_true] at hp
    exact ih hp.1
  | altSecond _ ih =>
    rw [Pattern.yieldsOnly, Bool.and_eq_true] at hp
    exact ih hp.2
  | rule _ ih => exact ih (hg _ hp)
  | node _ _ _ _ => exact List.forall_mem_singleton.mpr hp

theorem Matches.opensWith (hg : ∀ r, rules r → (g r).opensWith ok rules) (h : Matches g p c f)
    (hp : p.opensWith ok rules) : ∃ t r, c.tokens = t :: r ∧ ok t.kind := by
  induction h with
  | empty | sameLine _ | lineEnd _ | starNil | starCons _ _ _ _ | ahead _ _ | absent => cases hp
  | token ht hk => exact ⟨_, _, ht, List.all_eq_true.mp hp _ hk⟩
  | seq _ _ ih _ => exact ih hp
  | altFirst _ ih =>
    rw [Pattern.opensWith, Bool.and_eq_true] at hp
    exact ih hp.1
  | altSecond _ ih =>
    rw [Pattern.opensWith, Bool.and_eq_true] at hp
    exact ih hp.2
  | rule _ ih => exact ih (hg _ hp)
  | node _ _ _ ih | hidden _ ih => exact ih hp

end Tables

/-! ## Names with commas between them -/

/-- The tokens that some begin with, a comma before each but the first. -/
def listedNames : List Token → List Token
  | [] => []
  | [n] => [n]
  | n :: c :: r => if c.kind = .operator .comma then n :: listedNames r else [n]

/-- Commas and what stands behind them. -/
def commaList (ps : List (Token × Token)) : List Token := ps.flatMap fun x => [x.1, x.2]

theorem listedNames_eq {n : Token} {ps : List (Token × Token)} {rest : List Token}
    (hps : ∀ x ∈ ps, x.1.kind = .operator .comma) (hrest : ∀ t ∈ rest.head?, t.kind ≠ .operator .comma) :
    listedNames (n :: (commaList ps ++ rest)) = n :: ps.map (·.2) := by
  induction ps generalizing n with
  | nil =>
    cases rest with
    | nil => rfl
    | cons t r => exact if_neg (hrest t rfl)
  | cons x ps ih =>
    obtain ⟨hx, hps⟩ := List.forall_mem_cons.mp hps
    show (if x.1.kind = .operator .comma then n :: listedNames (x.2 :: (commaList ps ++ rest)) else [n]) = _
    rw [if_pos hx, ih hps]
    rfl

theorem listedNames_core (ts : List Token) : (listedNames ts).map Token.core = listedNames (ts.map Token.core) := by
  fun_induction listedNames ts with
  | case1 | case2 => rfl
  | case3 n c r hc ih =>
    have hcore : c.core.kind = .operator .comma := hc
    show n.core :: _ = if c.core.kind = .operator .comma then _ else _
    rw [if_pos hcore, ← ih]
  | case4 n c r hc => exact (if_neg hc).symm

end Syntax

/-! ## Specs -/

/-- The pattern of a spec. -/
def ValueKind.spec : ValueKind → Grammar.P
  | .const => Grammar.constSpec
  | .var => Grammar.varSpec

/-- What a spec of a kind counts as names. -/
def ValueKind.labels : ValueKind → List Label
  | .const => [.name, .comma]
  | .var => [.name]

/-- The nodes of the commas between names. -/
def ValueKind.commaNodes : ValueKind → Token → List Node
  | .const, c => [.node .comma c.start c.stop []]
  | .var, _ => []

def nameNode (n : Token) : Node := .node .name n.start n.stop []

section Specs

variable {c : Place} {f : Found Label}

/-- A node of one token. -/
theorem Syntax.Matches.node_token {l : Label} {kinds : List Kind}
    (h : Matches Grammar.rules (.node l (.token kinds)) c f) :
    ∃ t, c.tokens = t :: f.place.tokens ∧ t.kind ∈ kinds ∧ f.trees = [.node l t.start t.stop []] := by
  cases h with
  | node hm ht _ =>
    cases hm with
    | token ht' hk =>
      rw [ht] at ht'
      obtain ⟨rfl, rfl⟩ := List.cons.inj ht'
      exact ⟨_, ht, hk, rfl⟩

/-- A comma and a name behind it. -/
def IsFurtherName (x : Token × Token) : Prop :=
  x.1.kind = .operator .comma ∧ x.2.kind ∈ [Kind.name, .constant, .allocator]

/-- Whether matches of a pattern are a comma and a name behind it. -/
def TakesName (commaNodes : Token → List Node) (p : Grammar.P) : Prop :=
  ∀ c f, Matches Grammar.rules p c f → ∃ x, c.tokens = x.1 :: x.2 :: f.place.tokens ∧ IsFurtherName x ∧
    f.trees = commaNodes x.1 ++ [nameNode x.2]

/-- Further names, each behind a comma. -/
theorem exists_commaList {p : Grammar.P} {commaNodes : Token → List Node} (hp : TakesName commaNodes p)
    (h : Matches Grammar.rules (.star p) c f) : ∃ ps, c.tokens = commaList ps ++ f.place.tokens ∧
      (∀ x ∈ ps, IsFurtherName x) ∧ f.trees = ps.flatMap fun x => commaNodes x.1 ++ [nameNode x.2] := by
  generalize hq : Pattern.star p = q at h
  induction h with
  | starNil => exact ⟨[], rfl, List.forall_mem_nil _, rfl⟩
  | starCons hfirst _ _ ih =>
    cases hq
    obtain ⟨x, htokens, hx, htrees⟩ := hp _ _ hfirst
    obtain ⟨ps, hrest, hps, htrees'⟩ := ih rfl
    refine ⟨x :: ps, ?_, List.forall_mem_cons.mpr ⟨hx, hps⟩, ?_⟩
    · rw [htokens, hrest]
      rfl
    · rw [htrees, htrees', List.flatMap_cons]
  | _ => cases hq

/-- Behind the names there is no comma, and only values are marked. -/
structure EndsNames (c : Place) (f : Found Label) : Prop where
  taken : ∃ ws, c.tokens.map Token.core = ws ++ f.place.tokens.map Token.core ∧
    ∀ w ∈ ws.head?, w.kind ≠ .operator .comma
  labels : ∀ y ∈ f.trees, y.label = .value

def isType : Rule → Bool
  | .type _ => true
  | _ => false

/-- The rules that lists of statements are read by mark their statements. -/
def isSilent : Rule → Bool
  | .statements | .statement => false
  | _ => true

/-- What begins with no comma, and marks only values, ends names. -/
theorem endsNames_of_matches {p : Grammar.P} (hopens : p.opensWith (· != .operator .comma) isType)
    (hyields : p.yieldsOnly (· == .value) isSilent) (h : Matches Grammar.rules p c f) : EndsNames c f := by
  have hrules : ∀ r ∈ Rule.all, (isType r → (Grammar.rules r).opensWith (· != .operator .comma) isType) ∧
      (isSilent r → (Grammar.rules r).yieldsOnly (· == .value) isSilent) := by
    decide +kernel
  obtain ⟨t, r, ht, hkind⟩ := h.opensWith (fun r => (hrules r r.mem_all).1) hopens
  obtain ⟨us, rest, hus, htrimmed⟩ := h.leaves
  refine ⟨⟨us.map Token.core, by rw [hus, List.map_append, htrimmed.map_core], ?_⟩, fun y hy => ?_⟩
  · cases us with
    | nil => exact nofun
    | cons u us =>
      rintro w ⟨⟩
      rw [ht, List.cons_append, List.cons.injEq] at hus
      rw [← hus.1]
      exact bne_iff_ne.mp hkind
  · exact beq_iff_eq.mp (h.yieldsOnly (fun r => (hrules r r.mem_all).2) hyields y hy)

/-- A name, others behind commas, and what comes behind them in a spec. -/
structure BindsNames (commaNodes : Token → List Node) (c e : Place) (x : Node) (n : Token)
    (ps : List (Token × Token)) : Prop where
  tokens : ∃ us ws, c.tokens = n :: (commaList ps ++ us) ∧
    us.map Token.core = ws ++ e.tokens.map Token.core ∧ ∀ w ∈ ws.head?, w.kind ≠ .operator .comma
  name : n.kind ∈ [Kind.name, .constant, .allocator]
  further : ∀ y ∈ ps, IsFurtherName y
  children : ∃ values, x.children = nameNode n :: ((ps.flatMap fun y => commaNodes y.1 ++ [nameNode y.2]) ++ values) ∧
    ∀ y ∈ values, y.label = .value

theorem bindsNames_of_matches {p : Grammar.P} {commaNodes : Token → List Node} {x : Node} {e : Place}
    {f1 f2 f3 : Found Label} (hp : TakesName commaNodes p) (hname : Matches Grammar.rules (.node .name Grammar.name) c f1)
    (hstar : Matches Grammar.rules (.star p) f1.place f2) (hends : EndsNames f2.place f3)
    (he : f3.place = e) (hx : x.children = f1.trees ++ (f2.trees ++ f3.trees)) :
    ∃ n ps, BindsNames commaNodes c e x n ps := by
  obtain ⟨n, hn, hkind, hnode⟩ := hname.node_token
  obtain ⟨ps, hps, hfurther, htrees⟩ := exists_commaList hp hstar
  obtain ⟨⟨ws, hws, hfirst⟩, hvalues⟩ := hends
  refine ⟨n, ps, ⟨f2.place.tokens, ws, by rw [hn, hps], he ▸ hws, hfirst⟩, hkind, hfurther, f3.trees, ?_, hvalues⟩
  rw [hx, hnode, htrees]
  rfl

theorem takesName_const : TakesName ValueKind.const.commaNodes
    (.all [.sameLine, .node .comma Grammar.comma, .node .name Grammar.name]) := by
  intro c f h
  cases h with
  | seq hline h =>
    cases hline
    cases h with
    | seq hcomma hname =>
      obtain ⟨a, ha, hkind, htrees⟩ := hcomma.node_token
      obtain ⟨b, hb, hbkind, htrees'⟩ := hname.node_token
      refine ⟨(a, b), by rw [ha, hb], ⟨List.mem_singleton.mp hkind, hbkind⟩, ?_⟩
      dsimp only
      rw [htrees, htrees']
      rfl

theorem takesName_var : TakesName ValueKind.var.commaNodes (.seq Grammar.comma (.node .name Grammar.name)) := by
  intro c f h
  cases h with
  | seq hcomma hname =>
    cases hcomma with
    | token ha hkind =>
      obtain ⟨b, hb, hbkind, htrees⟩ := hname.node_token
      dsimp only at hb
      exact ⟨(_, b), by rw [ha, hb], ⟨List.mem_singleton.mp hkind, hbkind⟩, htrees⟩

/-- A spec begins with the names that it binds. -/
theorem ValueKind.exists_bindsNames {kind : ValueKind} {c e : Place} {x : Node}
    (h : Matches Grammar.rules kind.spec c ⟨[x], e⟩) : ∃ n ps, BindsNames kind.commaNodes c e x n ps := by
  cases kind with
  | const =>
    cases h with
    | node h _ _ =>
      cases h with
      | @seq _ _ _ _ _ hname h =>
        cases h with
        | @seq _ _ _ f2 f3 hstar htail =>
          have hends : EndsNames f2.place f3 := by
            cases htail with
            | altFirst htail =>
              cases htail with
              | seq hline htail =>
                cases hline
                exact endsNames_of_matches (by decide) (by decide) htail
            | altSecond hempty =>
              cases hempty
              exact ⟨⟨[], rfl, nofun⟩, List.forall_mem_nil _⟩
          exact bindsNames_of_matches takesName_const hname hstar hends rfl rfl
  | var =>
    cases h with
    | node h _ _ =>
      cases h with
      | @seq _ _ _ _ f3 h htail =>
        cases h with
        | @seq _ _ _ f1 f2 hname hstar =>
          have hends : EndsNames f2.place f3 := endsNames_of_matches (by decide) (by decide) htail
          exact bindsNames_of_matches takesName_var hname hstar hends rfl (List.append_assoc _ _ _)

end Specs

/-! ## Texts of names -/

/-- The text of a token. -/
def tokenText (source : Bytes) (t : Token) : String := textOf (slice source t.start t.stop)

/-- The names of a spec as its declaration lists them. -/
def ValueKind.listing : ValueKind → List String → List String
  | .const, ns => ns.intersperse ","
  | .var, ns => ns

section Texts

variable {kind : ValueKind} {source : Bytes} {c e : Place} {x : Node} {n : Token} {ps : List (Token × Token)}

theorem texts_furtherNames (h : ∀ y ∈ ps, tokenText source y.1 = ",") :
    (nameNode n :: ps.flatMap fun y => kind.commaNodes y.1 ++ [nameNode y.2]).map (Declaration.nodeText source) =
      kind.listing ((n :: ps.map (·.2)).map (tokenText source)) := by
  induction ps generalizing n with
  | nil => cases kind <;> rfl
  | cons y ps ih =>
    obtain ⟨hy, hps⟩ := List.forall_mem_cons.mp h
    have hrest := @ih y.2 hps
    cases kind with
    | const =>
      show tokenText source n :: tokenText source y.1 :: _ = tokenText source n :: "," :: _
      rw [hy]
      exact congrArg (tokenText source n :: "," :: ·) hrest
    | var => exact congrArg (tokenText source n :: ·) hrest

/-- The names of a spec are those that it binds, as they are listed. -/
theorem BindsNames.childTexts (h : BindsNames kind.commaNodes c e x n ps)
    (hcommas : ∀ y ∈ ps, tokenText source y.1 = ",") :
    Declaration.childTexts source kind.labels x = kind.listing ((n :: ps.map (·.2)).map (tokenText source)) := by
  obtain ⟨values, hchildren, hvalues⟩ := h.children
  have hnames : ∀ t ∈ nameNode n :: ps.flatMap fun y => kind.commaNodes y.1 ++ [nameNode y.2],
      kind.labels.contains t.label := by
    refine List.forall_mem_cons.mpr ⟨by cases kind <;> rfl, fun t ht => ?_⟩
    obtain ⟨y, -, ht⟩ := List.mem_flatMap.mp ht
    rcases List.mem_append.mp ht with ht | ht
    · cases kind with
      | const =>
        obtain rfl := List.mem_singleton.mp ht
        rfl
      | var => cases ht
    · obtain rfl := List.mem_singleton.mp ht
      cases kind <;> rfl
  have hothers : ∀ t ∈ values, ¬ kind.labels.contains t.label := fun t ht => by
    rw [hvalues t ht]
    cases kind <;> decide
  rw [Declaration.childTexts, hchildren, ← List.cons_append, List.filter_append, List.filter_eq_self.mpr hnames,
    List.filter_eq_nil_iff.mpr hothers, List.append_nil, texts_furtherNames hcommas]

end Texts

/-! ## Names bound in a file -/

namespace SourceFile

/-- The tokens of a file between two offsets. -/
def tokensIn (f : SourceFile) (start stop : Nat) : List Token :=
  match Utf8.decode? f.source with
  | some s => (scan s).tokens.filter fun t => start ≤ t.start && t.stop ≤ stop
  | none => []

/-- The specs of a declaration. -/
def specsOf (f : SourceFile) (d : Declaration) : List Node :=
  ((itemsIn f.source).find? (·.start == d.start)).elim [] (Declaration.withLabel .spec)

/-- The names that a spec binds. -/
def boundBy (f : SourceFile) (x : Node) : List String :=
  (listedNames (f.tokensIn x.start x.stop)).map (tokenText f.source)

/-- The names that a declaration binds, spec by spec. -/
def bound (f : SourceFile) (d : Declaration) : List (List String) := (f.specsOf d).map f.boundBy

end SourceFile

section Tokens

variable {s : List Char} {c e : Place} {x : Node} {p : Grammar.P} {l : Label}

/-- The tokens between two offsets are those of a middle part, if the others are before and behind it. -/
theorem filter_between {us vs ws : List Token} {a b : Nat} (hpos : ∀ t ∈ us ++ (vs ++ ws), t.start < t.stop)
    (hus : ∀ t ∈ us, t.stop ≤ a) (hvs : ∀ t ∈ vs, a ≤ t.start ∧ t.stop ≤ b) (hws : ∀ t ∈ ws, b ≤ t.start) :
    (us ++ (vs ++ ws)).filter (fun t => a ≤ t.start && t.stop ≤ b) = vs := by
  have hbefore : ∀ t ∈ us, ¬ (a ≤ t.start && t.stop ≤ b) := by
    intro t ht
    have := hus t ht
    have := hpos t (List.mem_append_left _ ht)
    simp only [Bool.and_eq_true, decide_eq_true_eq]
    omega
  have hwithin : ∀ t ∈ vs, a ≤ t.start && t.stop ≤ b := by
    intro t ht
    simp only [Bool.and_eq_true, decide_eq_true_eq]
    exact hvs t ht
  have hbehind : ∀ t ∈ ws, ¬ (a ≤ t.start && t.stop ≤ b) := by
    intro t ht
    have := hws t ht
    have := hpos t (List.mem_append_right _ (List.mem_append_right _ ht))
    simp only [Bool.and_eq_true, decide_eq_true_eq]
    omega
  rw [List.filter_append, List.filter_append, List.filter_eq_nil_iff.mpr hbefore, List.filter_eq_self.mpr hwithin,
    List.filter_eq_nil_iff.mpr hbehind, List.nil_append, List.append_nil]

theorem start_lt_stop_of_core {t : Token} (ht : t ∈ (scan s).tokens.map Token.core) : t.start < t.stop := by
  obtain ⟨u, hu, rfl⟩ := List.mem_map.mp ht
  exact ((startOf_orderly s).2.of_mem u hu).1

/-- The tokens in the range of a node are those that its match takes. -/
theorem tokens_of_node (hc : (startOf s).Forward (IsBoundary s) (IsWord s) c)
    (h : Matches Grammar.rules (.node l p) c ⟨[x], e⟩) {ts : List Token}
    (hts : c.tokens.map Token.core = ts ++ e.tokens.map Token.core) :
    ((scan s).tokens.filter fun t => x.start ≤ t.start && t.stop ≤ x.stop).map Token.core = ts := by
  have he := h.forward hc.orderly
  obtain ⟨us, hus, hbefore⟩ := hc.used
  obtain ⟨vs, hvs, hwithin⟩ := he.used
  obtain rfl : vs = ts := List.append_cancel_right (hvs.symm.trans hts)
  change (scan s).tokens.map Token.core = us ++ c.tokens.map Token.core at hus
  rw [hts] at hus
  obtain ⟨hstart, hstop⟩ : x.start = c.front ∧ x.stop = e.offset := by
    cases h with
    | node _ ht _ =>
      unfold Place.front
      rw [ht]
      exact ⟨rfl, rfl⟩
  have hmiddle : (us ++ (vs ++ e.tokens.map Token.core)).filter
      (fun t => c.front ≤ t.start && t.stop ≤ e.offset) = vs := by
    refine filter_between (fun t ht => start_lt_stop_of_core (hus ▸ ht)) (fun t ht => ?_) (fun t ht => ?_) fun t ht => ?_
    · exact Nat.le_trans (hbefore t ht).2 hc.orderly.le_front
    · exact ⟨hc.orderly.front_le t (hts ▸ List.mem_append_left _ ht), (hwithin t ht).2⟩
    · exact Nat.le_trans he.orderly.le_front (he.orderly.front_le t ht)
  rw [hstart, hstop, ← hmiddle, ← hus, List.filter_map]
  rfl

theorem tokenText_comma {t : Token} (h : IsWord s (.operator .comma) t.start t.stop) :
    tokenText (Utf8.encode s) t = "," := by
  have hall : operators.all (fun x => x.2 != .comma || x.1 == ",") := by decide
  have hword : IsWord s (.operator .comma) (nameNode t).start (nameNode t).stop := h
  obtain ⟨a, l, b, hab, hcls, htext⟩ := nodeText_of_isWord hword
  obtain ⟨w, hw, hl⟩ := operator_stretch hab hcls
  obtain rfl : w = "," := by simpa using List.all_eq_true.mp hall _ hw
  rw [hl, String.ofList_toList] at htext
  exact htext

end Tokens

/-! ## Declarations of values -/

/-- The label of a declaration. -/
def ValueKind.label : ValueKind → Label
  | .const => .constDecl
  | .var => .varDecl

theorem value_of_declaredBy {source : Bytes} {comments : List Comment} {t : Node} {kind : ValueKind} {names : List String}
    (h : Declaration.declaredBy source comments t = .ok (.value kind names)) : t.label = kind.label ∧
      names = (Declaration.withLabel .spec t).flatMap (Declaration.childTexts source kind.labels) := by
  unfold Declaration.declaredBy at h
  split at h
  case h_3 hl =>
    cases h
    exact ⟨hl, rfl⟩
  case h_4 hl =>
    cases h
    exact ⟨hl, rfl⟩
  case h_6 =>
    cases hspecs : (Declaration.withLabel .importSpec t).mapM (Declaration.importSpecOf source) with
    | error e => rw [hspecs] at h; cases h
    | ok specs => rw [hspecs] at h; cases h
  all_goals cases h

/-- A declaration holds specs, if its grammar has nothing else to mark. -/
theorem spec_of_mem_children {l : Label} {spec : Grammar.P} (hopened : Grammar.IsOpened l)
    (hspecs : ∀ o ∈ Grammar.openings, o.label = l → o.rest.Yields (· = spec)) {cut : Nat → Prop}
    {word : Kind → Nat → Nat → Prop} {c d : Place} {t : Node} (hc : c.Orderly cut word)
    (h : Matches Grammar.rules Grammar.item c ⟨[t], d⟩) (hl : t.label = l) :
    ∀ x ∈ t.children, ∃ c' e, c.Forward cut word c' ∧ Matches Grammar.rules spec c' ⟨[x], e⟩ := by
  obtain ⟨o, ho, hm⟩ := Grammar.exists_opening h (hl ▸ hopened)
  cases hm with
  | node hm _ _ =>
    have hyields : (Pattern.seq (.keyword o.word) o.rest).Yields (· = spec) := ⟨trivial, hspecs o ho hl⟩
    intro x hx
    obtain ⟨q, c', e, rfl, hc', hm'⟩ := hm.yielded hyields hc x hx
    exact ⟨c', e, hc', hm'⟩

theorem ValueKind.isOpened (kind : ValueKind) : Grammar.IsOpened kind.label := by
  show kind.label ∈ Grammar.openings.map Grammar.Opening.label
  cases kind <;> decide

/-- A declaration of values holds specs of its kind. -/
theorem ValueKind.yields_spec (kind : ValueKind) :
    ∀ o ∈ Grammar.openings, o.label = kind.label → o.rest.Yields (· = kind.spec) := by
  unfold Grammar.openings Grammar.outerOpenings Grammar.innerOpenings
  rw [List.cons_append, List.cons_append, List.cons_append, List.cons_append, List.nil_append]
  repeat rw [List.forall_mem_cons]
  cases kind
  · exact ⟨nofun, nofun, nofun, nofun, fun _ => ⟨⟨trivial, ⟨rfl, trivial, trivial⟩, trivial⟩, rfl⟩, nofun, nofun,
      List.forall_mem_nil _⟩
  · exact ⟨nofun, nofun, nofun, nofun, nofun, fun _ => ⟨⟨trivial, ⟨rfl, trivial, trivial⟩, trivial⟩, rfl⟩, nofun,
      List.forall_mem_nil _⟩

section Files

variable {filename : String} {source : Bytes} {strict : Bool} {f : SourceFile} {s : List Char} {kind : ValueKind}

theorem Parsed.tokensIn_eq (h : Parsed filename source strict f s) (start stop : Nat) :
    f.tokensIn start stop = (scan s).tokens.filter fun t => start ≤ t.start && t.stop ≤ stop := by
  rw [SourceFile.tokensIn, h.source_eq, h.encode_eq, Utf8.decode?_encode]

theorem BindsNames.mem_tokens {commaNodes : Token → List Node} {c e : Place} {x : Node} {n : Token}
    {ps : List (Token × Token)} (h : BindsNames commaNodes c e x n ps) :
    n ∈ c.tokens ∧ ∀ y ∈ ps, y.1 ∈ c.tokens ∧ y.2 ∈ c.tokens := by
  obtain ⟨us, ws, htokens, -, -⟩ := h.tokens
  rw [htokens]
  refine ⟨List.mem_cons_self, fun y hy => ?_⟩
  have hlist : ∀ t ∈ [y.1, y.2], t ∈ n :: (commaList ps ++ us) := fun t ht =>
    List.mem_cons_of_mem n (List.mem_append_left us (List.mem_flatMap.mpr ⟨y, hy, ht⟩))
  exact ⟨hlist _ List.mem_cons_self, hlist _ (List.mem_cons_of_mem _ List.mem_cons_self)⟩

/-- The names that a spec binds are those that its tokens list. -/
theorem Parsed.boundBy_eq (h : Parsed filename source strict f s) {c e : Place} {x : Node} {n : Token}
    {ps : List (Token × Token)} (hc : (startOf s).Forward (IsBoundary s) (IsWord s) c)
    (hm : Matches Grammar.rules kind.spec c ⟨[x], e⟩) (hb : BindsNames kind.commaNodes c e x n ps) :
    f.boundBy x = (n :: ps.map (·.2)).map (tokenText source) := by
  obtain ⟨us, ws, htokens, hus, hfirst⟩ := hb.tokens
  have htaken : c.tokens.map Token.core = n.core :: ((commaList ps).map Token.core ++ ws) ++ e.tokens.map Token.core := by
    rw [htokens, List.map_cons, List.map_append, hus, List.cons_append, List.append_assoc]
  have hrange : (f.tokensIn x.start x.stop).map Token.core = n.core :: ((commaList ps).map Token.core ++ ws) := by
    rw [h.tokensIn_eq]
    cases kind
    · exact tokens_of_node hc hm htaken
    · exact tokens_of_node hc hm htaken
  have hcores : (commaList ps).map Token.core = commaList (ps.map fun y => (y.1.core, y.2.core)) := by
    simp [commaList, List.map_flatMap, List.flatMap_map]
  have hcommas : ∀ y ∈ ps.map fun y => (y.1.core, y.2.core), y.1.kind = .operator .comma :=
    List.forall_mem_map.mpr fun y hy => (hb.further y hy).1
  have hlisted : (listedNames (f.tokensIn x.start x.stop)).map Token.core = (n :: ps.map (·.2)).map Token.core := by
    rw [listedNames_core, hrange, hcores, listedNames_eq hcommas hfirst]
    simp
  have htexts := congrArg (List.map (tokenText source)) hlisted
  rw [List.map_map, List.map_map] at htexts
  rw [SourceFile.boundBy, h.source_eq]
  exact htexts

/-- A declaration lists the names that a spec binds, which are one or more. -/
theorem Parsed.childTexts_spec (h : Parsed filename source strict f s) {c e : Place} {x : Node}
    (hc : (startOf s).Forward (IsBoundary s) (IsWord s) c) (hm : Matches Grammar.rules kind.spec c ⟨[x], e⟩) :
    Declaration.childTexts source kind.labels x = kind.listing (f.boundBy x) ∧ f.boundBy x ≠ [] ∧
      ∀ n ∈ f.boundBy x, IsNameText n.toList := by
  obtain ⟨n, ps, hb⟩ := kind.exists_bindsNames hm
  obtain ⟨hn, hps⟩ := hb.mem_tokens
  have hword : ∀ t ∈ c.tokens, IsWord s t.kind t.start t.stop := fun t ht => (hc.orderly.2.of_mem t ht).2.1
  have hcomma : ∀ y ∈ ps, tokenText source y.1 = "," := by
    intro y hy
    have hy1 := hword y.1 (hps y hy).1
    rw [(hb.further y hy).1] at hy1
    rw [h.encode_eq]
    exact tokenText_comma hy1
  have hname : ∀ t ∈ c.tokens, t.kind ∈ [Kind.name, .constant, .allocator] → IsNameText (tokenText source t).toList := by
    intro t ht hkind
    have hnode : IsWord s t.kind (nameNode t).start (nameNode t).stop := hword t ht
    have htext := isNameText_of_isWord hnode hkind
    rw [h.encode_eq]
    exact htext
  rw [h.boundBy_eq hc hm hb]
  refine ⟨hb.childTexts hcomma, List.cons_ne_nil _ _, List.forall_mem_map.mpr (List.forall_mem_cons.mpr ⟨?_, ?_⟩)⟩
  · exact hname n hn hb.name
  · exact List.forall_mem_map.mpr fun y hy => hname y.2 (hps y hy).2 (hb.further y hy).2

theorem find?_start {ts : List Node} (h : ts.Pairwise fun a b => a.stop ≤ b.start) (hpos : ∀ t ∈ ts, t.start < t.stop)
    {t : Node} (ht : t ∈ ts) : ts.find? (·.start == t.start) = some t := by
  induction ts with
  | nil => cases ht
  | cons u us ih =>
    rw [List.pairwise_cons] at h
    obtain ⟨hu, hus⟩ := List.forall_mem_cons.mp hpos
    rcases List.mem_cons.mp ht with rfl | ht
    · exact List.find?_cons_of_pos (beq_self_eq_true _)
    · have hne : u.start ≠ t.start := by
        have := h.1 t ht
        omega
      rw [List.find?_cons_of_neg (by simpa using hne)]
      exact ih h.2 hus ht

/-- The specs of a declaration are those of its item. -/
theorem Parsed.specsOf_eq (h : Parsed filename source strict f s) {d : Declaration} {t : Node}
    (ht : t ∈ (textItems s).nodes) (hstart : d.start = t.start) : f.specsOf d = Declaration.withLabel .spec t := by
  obtain ⟨hi, -, hnest⟩ := (read_textItems h.refusal).nested (startOf_orderly s)
  have hfind := find?_start hnest.pairwise (fun u hu => (hnest.of_mem hu).range.2.1) ht
  rw [SourceFile.specsOf, h.source_eq, h.itemsIn_eq, hstart, hfind]
  rfl

/-- The names of a declaration of values are those that its specs bind. -/
theorem Parsed.names_eq_bound (h : Parsed filename source strict f s) {d : Declaration} (hd : d ∈ f.declarations)
    {names : List String} (hvalue : d.declared = .value kind names) : names = (f.bound d).flatMap kind.listing ∧
      ∀ ns ∈ f.bound d, ns ≠ [] ∧ ∀ n ∈ ns, IsNameText n.toList := by
  obtain ⟨pre, t, post, -, ht, hat⟩ := h.readInOrder hd
  have hdeclared := hat.declared
  rw [hvalue] at hdeclared
  obtain ⟨hl, rfl⟩ := value_of_declaredBy hdeclared
  obtain ⟨c, e, hc, hm⟩ := (read_textItems h.refusal).matched (startOf_orderly s) t ht
  have hspec : ∀ x ∈ Declaration.withLabel .spec t,
      Declaration.childTexts source kind.labels x = kind.listing (f.boundBy x) ∧ f.boundBy x ≠ [] ∧ ∀ n ∈ f.boundBy x, IsNameText n.toList := by
    intro x hx
    obtain ⟨c', e', hc', hm'⟩ := spec_of_mem_children kind.isOpened kind.yields_spec hc.orderly hm hl x
      (Declaration.mem_withLabel hx)
    exact h.childTexts_spec (hc.trans hc') hm'
  rw [SourceFile.bound, h.specsOf_eq ht hat.start]
  refine ⟨?_, List.forall_mem_map.mpr fun x hx => (hspec x hx).2⟩
  rw [List.flatMap_map]
  exact List.flatMap_congr fun x hx => (hspec x hx).1

end Files

/-! ## Groups that share a name -/

/-- Whether a declaration is a group of values of a kind. -/
def Declaration.IsGroup (kind : ValueKind) (d : Declaration) : Prop := ∃ names, d.declared = .value kind names

namespace SourceFile

/-- Whether a file is what was read of a source. -/
def IsRead (f : SourceFile) : Prop := ∃ strict, parse f.filename f.source strict = .ok f

/-- Whether a spec of a declaration binds several names. -/
def BindsSeveral (f : SourceFile) (d : Declaration) : Prop := ∃ ns ∈ f.bound d, 2 ≤ ns.length

end SourceFile

section Shared

variable {f : SourceFile} {d : Declaration} {kind : ValueKind} {names wanted : List String} {n : String}

theorem ValueKind.mem_listing {ns : List String} :
    n ∈ kind.listing ns ↔ n ∈ ns ∨ kind = .const ∧ n = "," ∧ 2 ≤ ns.length := by
  cases kind with
  | var => simp [ValueKind.listing]
  | const =>
    show n ∈ ns.intersperse "," ↔ _
    fun_induction List.intersperse "," ns with
    | case1 => simp
    | case2 a => simp
    | case3 a b ns ih =>
      rw [List.mem_cons, List.mem_cons, ih, List.length_cons]
      grind

/-- A declaration lists the names that it binds, and a comma if a spec of constants binds several. -/
theorem SourceFile.IsRead.mem_names (hf : f.IsRead) (hd : d ∈ f.declarations) (h : d.declared = .value kind names) :
    n ∈ names ↔ n ∈ (f.bound d).flatten ∨ kind = .const ∧ n = "," ∧ f.BindsSeveral d := by
  obtain ⟨strict, hparse⟩ := hf
  obtain ⟨s, hs⟩ := parse_eq_ok_iff.mp hparse
  rw [(hs.names_eq_bound hd h).1, List.mem_flatMap, List.mem_flatten]
  simp only [ValueKind.mem_listing, SourceFile.BindsSeveral]
  grind

theorem SourceFile.IsRead.comma_notMem (hf : f.IsRead) (hd : d ∈ f.declarations) (h : d.declared = .value kind names) :
    "," ∉ (f.bound d).flatten := by
  obtain ⟨strict, hparse⟩ := hf
  obtain ⟨s, hs⟩ := parse_eq_ok_iff.mp hparse
  intro hcomma
  obtain ⟨ns, hns, hmem⟩ := List.mem_flatten.mp hcomma
  have hname := ((hs.names_eq_bound hd h).2 ns hns).2 _ hmem
  exact absurd (hname.all ',' (by decide)) (by decide)

/-- A group shares a name with those wanted if it binds one of them, or both have a comma. -/
theorem SourceFile.IsRead.isDeclaredBy_iff (hf : f.IsRead) (hd : d ∈ f.declarations) :
    (Subject.value kind wanted).isDeclaredBy d.declared ↔ d.IsGroup kind ∧
      ((∃ n ∈ (f.bound d).flatten, n ∈ wanted) ∨ kind = .const ∧ "," ∈ wanted ∧ f.BindsSeveral d) := by
  constructor
  · intro h
    obtain ⟨names, hnames⟩ : d.IsGroup kind := by
      cases hdeclared : d.declared <;> rw [hdeclared] at h
      case value kind' names =>
        obtain rfl := (Subject.isDeclaredBy_value.mp h).1
        exact ⟨names, hdeclared⟩
      all_goals cases h
    rw [hnames] at h
    obtain ⟨-, n, hn, hwanted⟩ := Subject.isDeclaredBy_value.mp h
    refine ⟨⟨names, hnames⟩, ?_⟩
    rcases (hf.mem_names hd hnames).mp hn with hn | ⟨hkind, rfl, hseveral⟩
    · exact .inl ⟨n, hn, hwanted⟩
    · exact .inr ⟨hkind, hwanted, hseveral⟩
  · rintro ⟨⟨names, hnames⟩, hshared⟩
    rw [hnames]
    refine Subject.isDeclaredBy_value.mpr ⟨rfl, ?_⟩
    rcases hshared with ⟨n, hn, hwanted⟩ | ⟨hkind, hwanted, hseveral⟩
    · exact ⟨n, (hf.mem_names hd hnames).mpr (.inl hn), hwanted⟩
    · exact ⟨",", (hf.mem_names hd hnames).mpr (.inr ⟨hkind, rfl, hseveral⟩), hwanted⟩

theorem Members.findSubject?_isSome {files : Members} {u : Subject} :
    (files.findSubject? u).isSome ↔ ∃ f ∈ files, ∃ d ∈ f.declarations, u.isDeclaredBy d.declared := by
  constructor
  · intro h
    obtain ⟨m, hm⟩ := Option.isSome_iff_exists.mp h
    obtain ⟨hfile, hd, hdeclared⟩ := Package.mem_of_findSubject? hm
    exact ⟨_, hfile, _, hd, hdeclared⟩
  · rintro ⟨f, hf, d, hd, hdeclared⟩
    cases hfound : files.findSubject? u with
    | some m => rfl
    | none => exact absurd hdeclared (Package.not_isDeclaredBy hfound hf hd)

end Shared

namespace Package

variable {q : Package} {ft : SourceFile} {dt : Declaration} {kind : ValueKind} {names : List String}
  {filename text : String} {replace : Bool}

/-- Whether a group and one of the same kind in a package have a comma each. -/
def SharesComma (q : Package) (ft : SourceFile) (kind : ValueKind) (dt : Declaration) : Prop :=
  kind = .const ∧ ft.BindsSeveral dt ∧ ∃ f ∈ q.files, ∃ d ∈ f.declarations, d.IsGroup kind ∧ f.BindsSeveral d

/-- Whether a group that was read binds no name that a group of its kind in a package does. -/
structure IsUnbound (q : Package) (ft : SourceFile) (kind : ValueKind) (dt : Declaration) (names : List String) :
    Prop where
  files : ∀ f ∈ q.files, f.IsRead
  file : ft.IsRead
  mem : dt ∈ ft.declarations
  declared : dt.declared = .value kind names
  free : ∀ f ∈ q.files, ∀ d ∈ f.declarations, d.IsGroup kind → ∀ n ∈ (f.bound d).flatten, n ∉ (ft.bound dt).flatten

namespace IsUnbound

/-- A name that a group of the package binds is no name of the new one. -/
theorem notMem (h : IsUnbound q ft kind dt names) {f : SourceFile} (hf : f ∈ q.files) {d : Declaration}
    (hd : d ∈ f.declarations) (hgroup : d.IsGroup kind) : ∀ n ∈ (f.bound d).flatten, n ∉ names := by
  intro n hn hwanted
  rcases (h.file.mem_names h.mem h.declared).mp hwanted with hbound | ⟨-, rfl, -⟩
  · exact h.free f hf d hd hgroup n hn hbound
  · obtain ⟨existing, hexisting⟩ := hgroup
    exact (h.files f hf).comma_notMem hd hexisting hn

/-- It meets a group of the package only in a comma. -/
theorem isDeclaredBy_iff (h : IsUnbound q ft kind dt names) {f : SourceFile} (hf : f ∈ q.files) {d : Declaration}
    (hd : d ∈ f.declarations) : (Subject.value kind names).isDeclaredBy d.declared ↔
      d.IsGroup kind ∧ kind = .const ∧ ft.BindsSeveral dt ∧ f.BindsSeveral d := by
  rw [(h.files f hf).isDeclaredBy_iff hd]
  refine and_congr_right fun hgroup => ⟨fun hshared => ?_, fun ⟨hkind, hseveral, hothers⟩ => .inr ⟨hkind, ?_, hothers⟩⟩
  · rcases hshared with ⟨n, hn, hwanted⟩ | ⟨hkind, hwanted, hothers⟩
    · exact absurd hwanted (h.notMem hf hd hgroup n hn)
    · have hcomma := (h.file.mem_names h.mem h.declared).mp hwanted
      exact ⟨hkind, (hcomma.resolve_left (h.file.comma_notMem h.mem h.declared)).2.2, hothers⟩
  · exact (h.file.mem_names h.mem h.declared).mpr (.inr ⟨hkind, rfl, hseveral⟩)

theorem addDeclaration (h : IsUnbound q ft kind dt names) (hnot : ¬ q.SharesComma ft kind dt) :
    Package.addDeclaration ⟨filename, .value kind names, text, replace⟩ q = append filename text q := by
  cases hfound : q.files.findSubject? (.value kind names) with
  | none => exact addDeclaration_of_none hfound
  | some m =>
    obtain ⟨hfile, hd, hdeclared⟩ := mem_of_findSubject? hfound
    obtain ⟨hgroup, hkind, hseveral, hothers⟩ := (h.isDeclaredBy_iff hfile hd).mp hdeclared
    exact absurd ⟨hkind, hseveral, _, hfile, _, hd, hgroup, hothers⟩ hnot

/-- The group that is found for a comma has a name that is not asked for. -/
theorem addDeclaration_comma (h : IsUnbound q ft kind dt names) (hcomma : q.SharesComma ft kind dt) :
    ∃ existing, Package.addDeclaration ⟨filename, .value kind names, text, replace⟩ q =
      (.error (.ambiguousGroup kind.name existing names), q) := by
  obtain ⟨hkind, hseveral, f, hf, d, hd, hgroup, hothers⟩ := hcomma
  have hsome := Members.findSubject?_isSome.mpr
    ⟨f, hf, d, hd, (h.isDeclaredBy_iff hf hd).mpr ⟨hgroup, hkind, hseveral, hothers⟩⟩
  obtain ⟨m, hfound⟩ := Option.isSome_iff_exists.mp hsome
  obtain ⟨hfile, hmem, hdeclared⟩ := mem_of_findSubject? hfound
  obtain ⟨⟨existing, hexisting⟩, -, -, ns, hns, hlength⟩ := (h.isDeclaredBy_iff hfile hmem).mp hdeclared
  refine ⟨existing, ?_⟩
  obtain ⟨n, hn⟩ := List.exists_mem_of_length_pos (Nat.lt_of_lt_of_le Nat.zero_lt_two hlength)
  have hflat : n ∈ (m.file.bound m.declaration).flatten := List.mem_flatten.mpr ⟨ns, hns, hn⟩
  have hlisted : n ∈ existing := ((h.files _ hfile).mem_names hmem hexisting).mpr (.inl hflat)
  have hwide : ¬ existing.all names.contains := fun hall =>
    h.notMem hfile hmem ⟨existing, hexisting⟩ n hflat (List.contains_iff_mem.mp (List.all_eq_true.mp hall n hlisted))
  have hexceeds : exceeds ⟨filename, .value kind names, text, replace⟩ m.declaration.declared =
      some (.ambiguousGroup kind.name existing names) := by
    rw [hexisting]
    exact if_neg hwide
  rw [addDeclaration_of_some hfound, hexceeds]
  rfl

end IsUnbound

end Package

/-- The names of a declaration of values are those that its specs bind, with the commas of specs of constants.  A group
is found by them, and one that binds no name of a package is refused only for a comma. -/
theorem valueNames_bound (kind : ValueKind) :
    (∀ filename source strict f d names, SourceFile.parse filename source strict = .ok f → d ∈ f.declarations →
      d.declared = .value kind names → names = (f.bound d).flatMap kind.listing ∧
        ∀ ns ∈ f.bound d, ns ≠ [] ∧ ∀ n ∈ ns, IsNameText n.toList) ∧
    (∀ (files : Members) wanted, (∀ f ∈ files, f.IsRead) →
      ((files.findSubject? (.value kind wanted)).isSome ↔ ∃ f ∈ files, ∃ d ∈ f.declarations, d.IsGroup kind ∧
        ((∃ n ∈ (f.bound d).flatten, n ∈ wanted) ∨ kind = .const ∧ "," ∈ wanted ∧ f.BindsSeveral d))) ∧
    ∀ (q : Package) (ft : SourceFile) dt names filename text replace, (∀ f ∈ q.files, f.IsRead) → ft.IsRead →
      dt ∈ ft.declarations → dt.declared = .value kind names →
      (∀ f ∈ q.files, ∀ d ∈ f.declarations, d.IsGroup kind → ∀ n ∈ (f.bound d).flatten, n ∉ (ft.bound dt).flatten) →
      (¬ q.SharesComma ft kind dt →
        Package.addDeclaration ⟨filename, .value kind names, text, replace⟩ q = Package.append filename text q) ∧
      (q.SharesComma ft kind dt → ∃ existing, Package.addDeclaration ⟨filename, .value kind names, text, replace⟩ q =
        (.error (.ambiguousGroup kind.name existing names), q)) := by
  refine ⟨fun filename source strict f d names h hd hvalue => ?_, fun files wanted hread => ?_,
    fun q ft dt names filename text replace hq ht hdt hnames hfree => ?_⟩
  · obtain ⟨s, hs⟩ := parse_eq_ok_iff.mp h
    exact hs.names_eq_bound hd hvalue
  · rw [Members.findSubject?_isSome]
    constructor
    · rintro ⟨f, hf, d, hd, hdeclared⟩
      exact ⟨f, hf, d, hd, ((hread f hf).isDeclaredBy_iff hd).mp hdeclared⟩
    · rintro ⟨f, hf, d, hd, hshared⟩
      exact ⟨f, hf, d, hd, ((hread f hf).isDeclaredBy_iff hd).mpr hshared⟩
  · have hunbound : q.IsUnbound ft kind dt names := ⟨hq, ht, hdt, hnames, hfree⟩
    exact ⟨hunbound.addDeclaration, hunbound.addDeclaration_comma⟩

/-! ### Two constants -/

theorem SourceFile.isRead_of_parse {filename : String} {source : Bytes} {strict : Bool} {f : SourceFile}
    (h : SourceFile.parse filename source strict = .ok f) : f.IsRead := by
  obtain ⟨s, hs⟩ := parse_eq_ok_iff.mp h
  refine ⟨strict, ?_⟩
  rw [hs.filename_eq, hs.source_eq]
  exact h

/-- A file with a group of constants. -/
def constantsText (group : String) : Bytes := bytesOf ("package a\n\n" ++ group ++ "\n")

/-- Whether a file has one declaration only, a group of constants of some names that binds some names in one spec. -/
def holdsOnly (names bound : List String) (f : SourceFile) : Bool :=
  f.declarations.map (fun d => (d.declared, f.bound d)) == [(.value .const names, [bound])]

theorem exists_of_holdsOnly {group : String} {names bound : List String}
    (h : (SourceFile.parse "a.go" (constantsText group) true).toOption.any (holdsOnly names bound)) :
    ∃ f d, SourceFile.parse "a.go" (constantsText group) true = .ok f ∧ f.declarations = [d] ∧
      d.declared = .value .const names ∧ f.bound d = [bound] := by
  obtain ⟨f, hf, hholds⟩ := (Option.any_eq_true _ _).mp h
  obtain ⟨d, hd, hboth⟩ := List.map_eq_singleton_iff.mp (beq_iff_eq.mp hholds)
  exact ⟨f, d, Package.eq_ok_of_toOption hf, hd, congrArg Prod.fst hboth, congrArg Prod.snd hboth⟩

/-- A package with a file. -/
def holding (f : SourceFile) : Package := { Package.noFile "." with files := [f] }

/-- Two groups without a common name: the commas of one count as those of the other. -/
theorem twoConstants_bound : ∃ f d, SourceFile.parse "a.go" (constantsText "const a, b = 1, 2") true = .ok f ∧
    f.declarations = [d] ∧ f.bound d = [["a", "b"]] ∧ ["a", ",", "b"] = (f.bound d).flatMap ValueKind.const.listing ∧
    (Members.findSubject? [f] (.value .const ["b"])).isSome ∧
    (∃ existing, Package.addDeclaration ⟨"a.go", .value .const ["c", ",", "d"], "const c, d = 3, 4", false⟩ (holding f) =
      (.error (.ambiguousGroup "const" existing ["c", ",", "d"]), holding f)) ∧
    Package.addDeclaration ⟨"a.go", .value .const ["c"], "const c = 3", false⟩ (holding f) =
      Package.append "a.go" "const c = 3" (holding f) := by
  obtain ⟨hnames, hfound, hadded⟩ := valueNames_bound .const
  have hold : (SourceFile.parse "a.go" (constantsText "const a, b = 1, 2") true).toOption.any
      (holdsOnly ["a", ",", "b"] ["a", "b"]) := by
    decide +kernel
  have hboth : (SourceFile.parse "a.go" (constantsText "const c, d = 3, 4") true).toOption.any
      (holdsOnly ["c", ",", "d"] ["c", "d"]) := by
    decide +kernel
  have hsingle : (SourceFile.parse "a.go" (constantsText "const c = 3") true).toOption.any (holdsOnly ["c"] ["c"]) := by
    decide +kernel
  obtain ⟨f, d, hf, hd, hvalue, hbound⟩ := exists_of_holdsOnly hold
  obtain ⟨f2, d2, hf2, hd2, hvalue2, hbound2⟩ := exists_of_holdsOnly hboth
  obtain ⟨f1, d1, hf1, hd1, hvalue1, hbound1⟩ := exists_of_holdsOnly hsingle
  have hmem : d ∈ f.declarations := hd ▸ List.mem_singleton.mpr rfl
  have hread : ∀ g ∈ [f], g.IsRead := List.forall_mem_singleton.mpr (SourceFile.isRead_of_parse hf)
  have hfree : ∀ names : List String, (∀ n ∈ ["a", "b"], n ∉ names) → ∀ g ∈ [f], ∀ e ∈ g.declarations,
      e.IsGroup .const → ∀ n ∈ (g.bound e).flatten, n ∉ names := by
    intro names hnot g hg e he _
    obtain rfl := List.mem_singleton.mp hg
    rw [hd] at he
    obtain rfl := List.mem_singleton.mp he
    rw [hbound]
    exact hnot
  refine ⟨f, d, hf, hd, hbound, (hnames _ _ _ _ _ _ hf hmem hvalue).1, ?_, ?_, ?_⟩
  · refine (hfound [f] ["b"] hread).mpr ⟨f, List.mem_singleton.mpr rfl, d, hmem, ⟨_, hvalue⟩, .inl ⟨"b", ?_⟩⟩
    rw [hbound]
    decide
  · refine (hadded (holding f) f2 d2 _ _ _ _ hread (SourceFile.isRead_of_parse hf2) (hd2 ▸ List.mem_singleton.mpr rfl)
      hvalue2 (hfree _ ?_)).2 ⟨rfl, ⟨_, hbound2 ▸ List.mem_singleton.mpr rfl, by decide⟩, f, List.mem_singleton.mpr rfl,
        d, hmem, ⟨_, hvalue⟩, _, hbound ▸ List.mem_singleton.mpr rfl, by decide⟩
    rw [hbound2]
    decide
  · refine (hadded (holding f) f1 d1 _ _ _ _ hread (SourceFile.isRead_of_parse hf1) (hd1 ▸ List.mem_singleton.mpr rfl)
      hvalue1 (hfree _ ?_)).1 ?_
    · rw [hbound1]
      decide
    · rintro ⟨-, ⟨ns, hns, hlength⟩, -⟩
      rw [hbound1, List.mem_singleton] at hns
      rw [hns] at hlength
      exact absurd hlength (by decide)

end GoSplice
