import GoSplice.Proofs.Steps

/-!
# Where a declaration may end

The tokens of a declaration outside of its brackets tell how far it has come.
`Stage.next` follows them, and a declaration can only end at a complete stage.
At such a stage the grammar takes no word that begins a declaration, unless a
line end before it is refused first; `flow` checks this pattern by pattern:

    flow p v = some vs → a match of p leads from view v to a view of vs   (Matches.leads)
    a declaration leads to complete stages only            (Opening.leadsTo_complete)

Brackets are counted.  Between brackets a declaration does not end, so there the
patterns need only close what they open.
-/

namespace GoSplice.Syntax

/-! ## Stages -/

/-- What stands before a token of a declaration, brackets left out. -/
inductive Stage where
  | package | imports | function | functionNamed | signature
  | type | typeFunction | typeHead | varHead | varNamed
  | constHead | constNamed | constType
  | value | valueFunction | valueSignature
  | closed | dot
  deriving Repr, DecidableEq

namespace Stage

/-- Whether the declaration may end here. -/
def isComplete : Stage → Bool
  | .signature | .constNamed | .closed => true
  | _ => false

/-- The stage behind a token that belongs to a type or an operand.  A function
type leads to a stage of its own. -/
def operand (more call : Stage) : Kind → Stage
  | .keyword .funcK => call
  | .operator .rightParen | .operator .rightBrace => .closed
  | .operator _ | .keyword _ => more
  | _ => .closed

/-- The stage behind a token.  A closing bracket stands for all that it closes. -/
def next : Stage → Kind → Stage
  | .package, _ => .closed
  | .imports, .text | .imports, .operator .rightParen => .closed
  | .imports, _ => .imports
  | .function, .operator .rightParen => .function
  | .function, _ => .functionNamed
  | .functionNamed, .operator .rightParen => .signature
  | .functionNamed, _ => .functionNamed
  | .signature, .operator .assign => .value
  | .signature, k => operand .type .typeFunction k
  | .type, k => operand .type .typeFunction k
  | .typeFunction, _ => .signature
  | .typeHead, .operator .rightParen => .closed
  | .typeHead, _ => .type
  | .varHead, .operator .rightParen => .closed
  | .varHead, _ => .varNamed
  | .varNamed, .operator .comma => .varHead
  | .varNamed, .operator .assign => .value
  | .varNamed, k => operand .type .typeFunction k
  | .constHead, .operator .rightParen => .closed
  | .constHead, _ => .constNamed
  | .constNamed, .operator .comma => .constHead
  | .constNamed, .operator .assign => .value
  | .constNamed, _ => .constType
  | .constType, .operator .assign => .value
  | .constType, _ => .constType
  | .value, k => operand .value .valueFunction k
  | .valueFunction, _ => .valueSignature
  | .valueSignature, k => operand .value .valueFunction k
  | .closed, .operator .dot => .dot
  | .closed, .operator .rightParen | .closed, .operator .rightBracket
  | .closed, .operator .rightBrace => .closed
  | .closed, _ => .value
  | .dot, _ => .closed

end Stage

namespace Kind

def opens : Kind → Bool
  | .operator .leftParen | .operator .leftBracket | .operator .leftBrace => true
  | _ => false

def closes : Kind → Bool
  | .operator .rightParen | .operator .rightBracket | .operator .rightBrace => true
  | _ => false

/-- Whether the token is what its characters say: no stretch that was left over. -/
def isSound : Kind → Bool
  | .unclosed _ | .junk => false
  | _ => true

/-- The words that begin a declaration. -/
def isOpening : Kind → Bool
  | .keyword .packageK | .keyword .importK | .keyword .funcK | .keyword .constK | .keyword .varK
  | .keyword .typeK => true
  | _ => false

/-- What may stand behind a declaration. -/
def follows (k : Kind) : Bool := k.isOpening || k = .operator .semicolon

end Kind

/-- How many brackets are open, and the stage outside of them. -/
structure Spot where
  depth : Nat
  stage : Stage

namespace Spot

def step (x : Spot) (k : Kind) : Spot :=
  if k.opens then ⟨x.depth + 1, x.stage⟩
  else if k.closes then if x.depth ≤ 1 then ⟨0, x.stage.next k⟩ else ⟨x.depth - 1, x.stage⟩
  else if x.depth = 0 then ⟨0, x.stage.next k⟩
  else x

def after (x : Spot) (ks : List Kind) : Spot := ks.foldl step x

@[simp] theorem after_nil (x : Spot) : x.after [] = x := rfl

@[simp] theorem after_append (x : Spot) (ks ls : List Kind) :
    x.after (ks ++ ls) = (x.after ks).after ls :=
  List.foldl_append

end Spot

/-! ## Views -/

/-- What is known of a spot while a pattern is matched: the brackets opened since,
and the stage, if none were open before.  With `going`, the declaration has tokens to come. -/
structure View where
  depth : Nat
  stage : Option Stage
  going : Bool
  deriving Repr, DecidableEq

namespace View

/-- The spot that is viewed, where `base + 1` brackets at the stage `outer` were
open before if any were. -/
def spot (base : Nat) (outer : Stage) (v : View) : Spot :=
  match v.stage with
  | some q => ⟨v.depth, q⟩
  | none => ⟨base + 1 + v.depth, outer⟩

/-- Whether the declaration may end here. -/
def mayEnd (v : View) : Bool :=
  match v.stage with
  | some q => v.depth = 0 && q.isComplete && !v.going
  | none => false

/-- The view behind a token; none where the token closes what was not opened. -/
def step? (v : View) (k : Kind) : Option View :=
  if k.opens then some ⟨v.depth + 1, v.stage, false⟩
  else if k.closes then
    match v.depth with
    | 0 => none
    | 1 => some ⟨0, v.stage.map (·.next k), false⟩
    | d + 2 => some ⟨d + 1, v.stage, false⟩
  else if v.depth = 0 then some ⟨0, v.stage.map (·.next k), false⟩
  else some ⟨v.depth, v.stage, false⟩

theorem spot_step {v w : View} {k : Kind} (h : v.step? k = some w) (base : Nat) (outer : Stage) :
    w.spot base outer = (v.spot base outer).step k := by
  obtain ⟨depth, stage, going⟩ := v
  unfold step? at h
  unfold Spot.step
  split at h
  · next ho =>
    cases h
    cases stage <;> simp [spot, ho, Nat.add_assoc]
  · next ho =>
    split at h
    · next hc =>
      split at h
      · cases h
      · next hd =>
        dsimp only at hd
        cases h
        cases stage <;> simp [spot, ho, hc, hd]
      · next d hd =>
        dsimp only at hd
        cases h
        cases stage <;> simp [spot, ho, hc, hd]
        omega
    · next hc =>
      split at h
      · next hd =>
        dsimp only at hd
        cases h
        cases stage <;> simp [spot, ho, hc, hd]
      · next hd =>
        dsimp only at hd
        cases h
        cases stage <;> simp [spot, ho, hc, hd]

end View

/-! ## Views behind a pattern -/

/-- All results for the members of a list, if each has some. -/
def gather {α β : Type} [DecidableEq β] (f : α → Option (List β)) : List α → Option (List β)
  | [] => some []
  | x :: xs =>
    match f x, gather f xs with
    | some ys, some zs => some (ys ++ zs).eraseDups
    | _, _ => none

theorem mem_gather {α β : Type} [DecidableEq β] {f : α → Option (List β)} {xs : List α} {zs : List β}
    (h : gather f xs = some zs) {x : α} (hx : x ∈ xs) : ∃ ys, f x = some ys ∧ ∀ y ∈ ys, y ∈ zs := by
  induction xs generalizing zs with
  | nil => cases hx
  | cons x' xs ih =>
    unfold gather at h
    split at h
    · next ys zs' hys hzs =>
      cases h
      rcases List.mem_cons.mp hx with rfl | hx
      · exact ⟨ys, hys, fun y hy => by simp [hy]⟩
      · obtain ⟨ws, hws, hsub⟩ := ih hzs hx
        exact ⟨ws, hws, fun y hy => by simp [hsub y hy]⟩
    · cases h

/-- The views reached from some by any number of steps, tried so many times. -/
def closure (f : View → Option (List View)) : Nat → List View → Option (List View)
  | 0, _ => none
  | n + 1, vs =>
    match gather f vs with
    | none => none
    | some ws => if ws.all vs.contains then some vs else closure f n (vs ++ ws).eraseDups

/-- Views that a step does not lead out of. -/
def Closed (f : View → Option (List View)) (vs : List View) : Prop :=
  ∀ v ∈ vs, ∃ ws, f v = some ws ∧ ∀ w ∈ ws, w ∈ vs

theorem closed_closure {f : View → Option (List View)} {n : Nat} {vs ws : List View}
    (h : closure f n vs = some ws) : (∀ v ∈ vs, v ∈ ws) ∧ Closed f ws := by
  induction n generalizing vs with
  | zero => cases h
  | succ n ih =>
    unfold closure at h
    split at h
    · cases h
    · next xs hxs =>
      split at h
      · next hall =>
        cases h
        refine ⟨fun v hv => hv, fun v hv => ?_⟩
        obtain ⟨ys, hys, hsub⟩ := mem_gather hxs hv
        rw [List.all_eq_true] at hall
        exact ⟨ys, hys, fun y hy => List.contains_iff_mem.mp (hall y (hsub y hy))⟩
      · obtain ⟨hsub, hclosed⟩ := ih h
        exact ⟨fun v hv => hsub v (by simp [hv]), hclosed⟩

namespace Pattern

variable {R L : Type}

def isSameLine : Pattern R L → Bool
  | .sameLine => true
  | _ => false

theorem eq_sameLine {p : Pattern R L} (h : p.isSameLine) : p = .sameLine := by
  cases p <;> first | rfl | cases h

/-- The kinds that the pattern tests for, if it is a test of one token. -/
def kinds? : Pattern R L → Option (List Kind)
  | .token kinds => some kinds
  | _ => none

theorem eq_token {p : Pattern R L} {kinds : List Kind} (h : p.kinds? = some kinds) :
    p = .token kinds := by
  cases p <;> first | (cases h; rfl) | cases h

section Tables

variable (firm : R → Bool) (exits : R → Stage → Bool → Option (List Stage))

/-- Whether the pattern begins with a token that is no semicolon, given the rules that do. -/
def refuses : Pattern R L → Bool
  | .token kinds => !kinds.contains (.operator .semicolon)
  | .seq p _ => p.refuses
  | .alt p q => p.refuses && q.refuses
  | .rule r => firm r
  | .node _ p | .hidden p | .ahead p => p.refuses
  | _ => false

/-- The views behind a pattern, given those behind the rules; none where the
pattern may take the beginning of another declaration. -/
def flow : Pattern R L → View → Option (List View)
  | .empty, v => some [v]
  | .token kinds, v =>
    if (v.mayEnd && kinds.any Kind.follows) || kinds.any (!·.isSound) then none
    else gather (fun k => (v.step? k).map fun w => [w]) kinds
  | .sameLine, v | .lineEnd, v => if v.mayEnd then none else some [v]
  | .seq p q, v =>
    if p.isSameLine then
      if q.refuses firm || !v.mayEnd then q.flow { v with going := true } else none
    else
      match p.flow v with
      | none => none
      | some ws => gather q.flow ws
  | .alt p q, v =>
    match p.flow v, q.flow v with
    | some vs, some ws => some (vs ++ ws).eraseDups
    | _, _ => none
  | .star p, v => closure p.flow 8 [v]
  | .rule r, v =>
    match v.depth, v.stage with
    | 0, some q => (exits r q v.going).map fun qs => qs.map fun q' => ⟨0, some q', false⟩
    | _, _ => some [{ v with going := false }]
  | .node _ p, v => if v.mayEnd then none else p.flow v
  | .hidden p, v => p.flow v
  | .ahead p, v =>
    match p.kinds? with
    | some kinds => if v.mayEnd && kinds.any Kind.follows then none else some [v]
    | none => (p.flow v).map fun _ => [v]
  | .absent p, v => (p.flow v).map fun _ => [v]

/-- Whether a pattern leads from a view to spots outside of new brackets at some stages only. -/
def leadsTo (p : Pattern R L) (v : View) (qs : List (Option Stage)) : Bool :=
  match p.flow firm exits v with
  | some ws => ws.all fun w => w.depth = 0 && qs.contains w.stage
  | none => false

theorem leadsTo_iff {p : Pattern R L} {v : View} {qs : List (Option Stage)} :
    p.leadsTo firm exits v qs ↔
      ∃ ws, p.flow firm exits v = some ws ∧ ∀ w ∈ ws, w.depth = 0 ∧ w.stage ∈ qs := by
  unfold leadsTo
  cases p.flow firm exits v <;> simp

end Tables

end Pattern

/-- A grammar whose rules lead where tables say.  Between brackets, a rule closes what it
opens and nothing else. -/
structure Charted {R L : Type} (g : R → Pattern R L) (firm : R → Bool)
    (exits : R → Stage → Bool → Option (List Stage)) : Prop where
  refuses : ∀ r, firm r → (g r).refuses firm
  inside : ∀ r, (g r).leadsTo firm exits ⟨0, none, false⟩ [none]
  outside : ∀ r q going qs, exits r q going = some qs →
    (g r).leadsTo firm exits ⟨0, some q, going⟩ (qs.map some)

/-- A rule between brackets is viewed as if they were all that is open. -/
theorem View.exists_inside {v : View} (h : ∀ q, v.depth = 0 → v.stage ≠ some q) (base : Nat)
    (outer : Stage) : ∃ base' outer', ∀ w : View, w.depth = 0 → w.stage = none →
      w.spot base' outer' = v.spot base outer := by
  obtain ⟨depth, stage, going⟩ := v
  cases stage with
  | none =>
    refine ⟨base + depth, outer, fun w hd hs => ?_⟩
    simp only [View.spot, hs, hd]
    congr 1
    omega
  | some q =>
    cases depth with
    | zero => exact absurd rfl (h q rfl)
    | succ d =>
      refine ⟨d, q, fun w hd hs => ?_⟩
      simp only [View.spot, hs, hd, Nat.add_zero]

section Soundness

variable {R L : Type} {g : R → Pattern R L} {firm : R → Bool}
  {exits : R → Stage → Bool → Option (List Stage)}

/-- The kinds of the tokens to come. -/
def Place.kinds (c : Place) : List Kind := c.tokens.map Token.kind

/-- The way from one place to another leads from a view to one of some views. -/
def Leads (c d : Place) (v : View) (vs : List View) : Prop :=
  ∀ base outer, ∃ w ∈ vs, ∃ ks, c.kinds = ks ++ d.kinds ∧ (∀ k ∈ ks, k.isSound) ∧
    w.spot base outer = (v.spot base outer).after ks

theorem Leads.refl {c : Place} {v : View} {vs : List View} (h : v ∈ vs) : Leads c c v vs :=
  fun _ _ => ⟨v, h, [], rfl, nofun, rfl⟩

theorem Leads.mono {c d : Place} {v : View} {vs ws : List View} (h : Leads c d v vs)
    (hsub : ∀ w ∈ vs, w ∈ ws) : Leads c d v ws := by
  intro base outer
  obtain ⟨w, hw, rest⟩ := h base outer
  exact ⟨w, hsub w hw, rest⟩

theorem Leads.trans {c d e : Place} {v : View} {vs ws : List View} (h : Leads c d v vs)
    (h' : ∀ w ∈ vs, Leads d e w ws) : Leads c e v ws := by
  intro base outer
  obtain ⟨w, hw, ks, hks, hsound, hspot⟩ := h base outer
  obtain ⟨x, hx, ls, hls, hsound', hspot'⟩ := h' w hw base outer
  refine ⟨x, hx, ks ++ ls, by rw [hks, hls, List.append_assoc], ?_, ?_⟩
  · intro k hk
    exact (List.mem_append.mp hk).elim (hsound k) (hsound' k)
  · rw [hspot', hspot, Spot.after_append]

/-- A rule leads to the views that its pattern leads to. -/
theorem Charted.leads_rule (hg : Charted g firm exits) {r : R} {c d : Place} {v : View}
    {vs : List View} (hv : (Pattern.rule r : Pattern R L).flow firm exits v = some vs)
    (h : ∀ w ws, (g r).flow firm exits w = some ws → Leads c d w ws) : Leads c d v vs := by
  obtain ⟨depth, stage, going⟩ := v
  intro base outer
  by_cases hout : depth = 0 ∧ ∃ q, stage = some q
  · obtain ⟨rfl, q, rfl⟩ := hout
    simp only [Pattern.flow, Option.map_eq_some_iff] at hv
    obtain ⟨qs, hqs, rfl⟩ := hv
    obtain ⟨ws, hws, hlead⟩ := (Pattern.leadsTo_iff firm exits).mp (hg.outside r q going qs hqs)
    obtain ⟨w, hw, ks, hks, hsound, hspot⟩ := h _ ws hws base outer
    obtain ⟨hd, hs⟩ := hlead w hw
    obtain ⟨q', hq', hs⟩ := List.mem_map.mp hs
    refine ⟨⟨0, some q', false⟩, List.mem_map_of_mem hq', ks, hks, hsound, ?_⟩
    rw [← hspot]
    simp only [View.spot, ← hs, hd]
  · have hv : vs = [⟨depth, stage, false⟩] := by
      unfold Pattern.flow at hv
      split at hv
      · next q hd hs => exact absurd ⟨hd, q, hs⟩ hout
      · exact (Option.some.inj hv).symm
    subst hv
    obtain ⟨base', outer', hview⟩ := View.exists_inside (v := ⟨depth, stage, going⟩)
      (fun q hd hs => hout ⟨hd, q, hs⟩) base outer
    obtain ⟨ws, hws, hlead⟩ := (Pattern.leadsTo_iff firm exits).mp (hg.inside r)
    obtain ⟨w, hw, ks, hks, hsound, hspot⟩ := h _ ws hws base' outer'
    obtain ⟨hd, hs⟩ := hlead w hw
    refine ⟨_, List.mem_singleton.mpr rfl, ks, hks, hsound, ?_⟩
    rw [hview w hd (List.mem_singleton.mp hs), hview ⟨0, none, false⟩ rfl rfl] at hspot
    rw [← hspot]
    rfl

/-- A match leads from a view to the views behind its pattern.  A repetition leads from
view to view among those that its pattern does not lead out of. -/
theorem Matches.leads (hg : Charted g firm exits) {p : Pattern R L} {c : Place} {f : Found L}
    (h : Matches g p c f) :
    (∀ v vs, p.flow firm exits v = some vs → Leads c f.place v vs) ∧
    ∀ q, p = .star q → ∀ v vs, Closed (q.flow firm exits) vs → v ∈ vs → Leads c f.place v vs := by
  induction h with
  | empty =>
    refine ⟨fun v vs hv => ?_, nofun⟩
    cases hv
    exact .refl List.mem_cons_self
  | @token kinds c t r ht hk =>
    refine ⟨fun v vs hv => ?_, nofun⟩
    unfold Pattern.flow at hv
    split at hv
    · cases hv
    · next hcond =>
      obtain ⟨ys, hys, hsub⟩ := mem_gather hv hk
      obtain ⟨w, hw, rfl⟩ := Option.map_eq_some_iff.mp hys
      have hsound : t.kind.isSound := by
        simp only [Bool.or_eq_true, not_or, List.any_eq_true, not_exists, not_and] at hcond
        simpa using hcond.2 t.kind hk
      intro base outer
      refine ⟨w, hsub w List.mem_cons_self, [t.kind], by simp [Place.kinds, ht], ?_, View.spot_step hw _ _⟩
      intro k hk'
      rw [List.mem_singleton] at hk'
      exact hk' ▸ hsound
  | sameLine _ =>
    refine ⟨fun v vs hv => ?_, nofun⟩
    unfold Pattern.flow at hv
    split at hv
    · cases hv
    · cases hv
      exact .refl List.mem_cons_self
  | @lineEnd c b hb =>
    refine ⟨fun v vs hv => ?_, nofun⟩
    unfold Pattern.flow at hv
    split at hv
    · cases hv
    · cases hv
      have hkinds : (c.afterBreak b).kinds = c.kinds := by
        obtain ⟨offset, tokens, lastBreak⟩ := c
        cases tokens <;> rfl
      intro base outer
      exact ⟨v, List.mem_cons_self, [], hkinds.symm, nofun, rfl⟩
  | @seq p q c f f' h1 _ ih1 ih2 =>
    refine ⟨fun v vs hv => ?_, nofun⟩
    unfold Pattern.flow at hv
    split at hv
    · next hs =>
      split at hv
      · have hc : f.place = c := by
          rw [Pattern.eq_sameLine hs] at h1
          cases h1
          rfl
        rw [hc] at ih2
        exact ih2.1 { v with going := true } vs hv
      · cases hv
    · split at hv
      · cases hv
      · next ws hws =>
        refine (ih1.1 v ws hws).trans fun w hw => ?_
        obtain ⟨xs, hxs, hsub⟩ := mem_gather hv hw
        exact (ih2.1 w xs hxs).mono hsub
  | altFirst _ ih =>
    refine ⟨fun v vs hv => ?_, nofun⟩
    unfold Pattern.flow at hv
    split at hv
    · next hvs _ =>
      cases hv
      exact (ih.1 v _ hvs).mono fun w hw => by simp [hw]
    · cases hv
  | altSecond _ ih =>
    refine ⟨fun v vs hv => ?_, nofun⟩
    unfold Pattern.flow at hv
    split at hv
    · next _ hws =>
      cases hv
      exact (ih.1 v _ hws).mono fun w hw => by simp [hw]
    · cases hv
  | starNil =>
    refine ⟨fun v vs hv => ?_, fun q _ v vs _ hmem => .refl hmem⟩
    exact .refl ((closed_closure hv).1 v List.mem_cons_self)
  | @starCons p c f f' _ _ ih1 ih2 =>
    have hstar : ∀ v vs, Closed (p.flow firm exits) vs → v ∈ vs → Leads c f'.place v vs := by
      intro v vs hclosed hmem
      obtain ⟨ws, hws, hsub⟩ := hclosed v hmem
      exact (ih1.1 v ws hws).trans fun w hw => ih2.2 p rfl w vs hclosed (hsub w hw)
    refine ⟨fun v vs hv => ?_, ?_⟩
    · obtain ⟨hsub, hclosed⟩ := closed_closure hv
      exact hstar v vs hclosed (hsub v List.mem_cons_self)
    · rintro q ⟨⟩
      exact hstar
  | rule _ ih => exact ⟨fun v vs hv => hg.leads_rule hv fun w ws => ih.1 w ws, nofun⟩
  | node _ _ _ ih =>
    refine ⟨fun v vs hv => ?_, nofun⟩
    unfold Pattern.flow at hv
    split at hv
    · cases hv
    · exact ih.1 v vs hv
  | hidden _ ih => exact ⟨fun v vs hv => ih.1 v vs hv, nofun⟩
  | ahead _ _ =>
    refine ⟨fun v vs hv => ?_, nofun⟩
    unfold Pattern.flow at hv
    split at hv
    · split at hv
      · cases hv
      · cases hv
        exact .refl List.mem_cons_self
    · obtain ⟨ws, -, rfl⟩ := Option.map_eq_some_iff.mp hv
      exact .refl List.mem_cons_self
  | absent =>
    refine ⟨fun v vs hv => ?_, nofun⟩
    unfold Pattern.flow at hv
    obtain ⟨ws, -, rfl⟩ := Option.map_eq_some_iff.mp hv
    exact .refl List.mem_cons_self

end Soundness

/-! ## The grammar of files -/

namespace Grammar

open Pattern

/-- The rules that begin with a token that is no semicolon. -/
def isFirm : Rule → Bool
  | .type _ | .typeArguments | .parameters | .literalValue | .block => true
  | _ => false

/-- The stages behind a rule outside of brackets.  A type that a value follows, as in a
constant, is not told apart from its parts. -/
def exits : Rule → Stage → Bool → Option (List Stage)
  | .type true, .type, _ | .type true, .varNamed, _ | .type true, .signature, true =>
    some [.closed, .signature]
  | .type false, .constNamed, true | .type false, .constType, _ => some [.constType]
  | .type false, .value, _ | .type false, .valueSignature, _ => some [.closed, .valueSignature]
  | .parameters, .functionNamed, _ | .parameters, .typeFunction, _ => some [.signature]
  | .parameters, .valueFunction, _ => some [.valueSignature]
  | .parameters, .signature, _ | .parameters, .valueSignature, _ => some [.closed]
  | .parameters, .constType, _ | .typeArguments, .constType, _ => some [.constType]
  | .typeArguments, .closed, _ => some [.closed]
  | .expression ⟨true, true, false⟩, .value, _ | .primary ⟨true, true, false⟩, .value, _ =>
    some [.closed]
  | .literalValue, .closed, _ | .literalValue, .valueSignature, _ => some [.closed]
  | .block, .closed, _ | .block, .signature, _ | .block, .valueSignature, _ => some [.closed]
  | _, _, _ => none

/-- All stages. -/
def stages : List Stage :=
  [.package, .imports, .function, .functionNamed, .signature, .type, .typeFunction, .typeHead,
    .varHead, .varNamed, .constHead, .constNamed, .constType, .value, .valueFunction,
    .valueSignature, .closed, .dot]

theorem mem_stages (q : Stage) : q ∈ stages := by cases q <;> decide

theorem charted : Charted rules isFirm exits := by
  have hrefuses : ∀ r ∈ Rule.all, isFirm r → (rules r).refuses isFirm := by decide +kernel
  have hinside : ∀ r ∈ Rule.all, (rules r).leadsTo isFirm exits ⟨0, none, false⟩ [none] := by
    decide +kernel
  have houtside : ∀ r ∈ Rule.all, ∀ q ∈ stages, ∀ going, ∀ qs ∈ exits r q going,
      (rules r).leadsTo isFirm exits ⟨0, some q, going⟩ (qs.map some) := by
    decide +kernel
  exact ⟨fun r => hrefuses r r.mem_all, fun r => hinside r r.mem_all,
    fun r q going qs => houtside r r.mem_all q (mem_stages q) going qs⟩

/-- How a declaration begins: with a word, and what its node holds behind it. -/
structure Opening where
  label : Label
  word : Keyword
  rest : P
  stage : Stage

def Opening.pattern (o : Opening) : P := .node o.label (.seq (keyword o.word) o.rest)

/-- The openings that only stand between declarations. -/
def outerOpenings : List Opening := [
  ⟨.packageClause, .packageK, .node .name name, .package⟩,
  ⟨.importDecl, .importK,
    any [all [leftParen, body importSpec, .node .closeParen rightParen], importSpec], .imports⟩,
  ⟨.function, .funcK, all [.node .name name, optional typeParameters, signature], .function⟩,
  ⟨.method, .funcK, all [receiver, .node .name name, signature], .function⟩]

/-- The openings of declarations that are statements too. -/
def innerOpenings : List Opening := [
  ⟨.constDecl, .constK,
    any [all [leftParen, .star (.seq constSpec terminator), rightParen], constSpec], .constHead⟩,
  ⟨.varDecl, .varK,
    any [all [leftParen, .star (.seq varSpec terminator), rightParen], varSpec], .varHead⟩,
  ⟨.typeDecl, .typeK,
    any [all [leftParen, .star (.seq typeSpec terminator), optional typeSpec, rightParen], typeSpec],
    .typeHead⟩]

def openings : List Opening := outerOpenings ++ innerOpenings

theorem item_eq : item = any (outerOpenings.map Opening.pattern ++ [.rule .statement]) := rfl

/-- A statement is a declaration, or its node says that it is none. -/
theorem statement_eq : ∃ ps : List P, ps ≠ [] ∧
    statement = any (innerOpenings.map Opening.pattern ++ ps) ∧
    ∀ p ∈ ps, p.Emits fun l => l ∉ openings.map Opening.label := by
  refine ⟨_, ?_, rfl, ?_⟩
  · exact List.cons_ne_nil _ _
  simp only [List.forall_mem_cons]
  refine ⟨?_, ?_, ?_, ?_, ?_, ?_, ?_, ?_, ?_, ?_, ?_, ?_, ?_, ?_, ?_, ?_, nofun⟩ <;>
    (simp only [Pattern.Emits, simple]; decide)

/-- Every declaration ends at a complete stage. -/
theorem Opening.leadsTo_complete {o : Opening} (h : o ∈ openings) :
    o.rest.leadsTo isFirm exits ⟨0, some o.stage, false⟩ ((stages.filter Stage.isComplete).map some) := by
  have hall : ∀ o ∈ openings, o.rest.leadsTo isFirm exits ⟨0, some o.stage, false⟩
      ((stages.filter Stage.isComplete).map some) := by
    decide +kernel
  exact hall o h

end Grammar

end GoSplice.Syntax
