import GoSplice.Proofs.Items
import GoSplice.Proofs.Stages

/-!
# Matches that what follows does not change

A declaration is matched by its own tokens.  What follows it, and how far into
its file it begins, is its frame; a frame stops a declaration that may end.

    flow p v = some vs → find? g n p (F.place o ts) does not depend on F   (Charted.isLocal)
    a declaration that is read in one frame is read in every frame         (item?_opened)

A piece is what a match gives, with offsets that do not count the frame.
-/

namespace GoSplice.Syntax

variable {R L : Type}

/-! ## Moving along the file -/

/-- A token further on in its file. -/
def Token.moved (n : Nat) (t : Token) : Token :=
  ⟨t.kind, t.start + n, t.stop + n, t.lineBreak.map (· + n)⟩

mutual
/-- A node further on in its file. -/
def Tree.moved (n : Nat) : Tree L → Tree L
  | .node l s e cs => .node l (s + n) (e + n) (movedAll n cs)
def movedAll (n : Nat) : List (Tree L) → List (Tree L)
  | [] => []
  | t :: ts => t.moved n :: movedAll n ts
end

mutual
theorem Tree.moved_injective {n : Nat} : ∀ {t u : Tree L}, t.moved n = u.moved n → t = u
  | .node .., .node .., h => by
    simp only [Tree.moved, Tree.node.injEq, Nat.add_right_cancel_iff] at h
    obtain ⟨rfl, rfl, rfl, h⟩ := h
    rw [movedAll_injective h]
theorem movedAll_injective {n : Nat} : ∀ {ts us : List (Tree L)}, movedAll n ts = movedAll n us → ts = us
  | [], [], _ => rfl
  | [], _ :: _, h | _ :: _, [], h => by cases h
  | _ :: _, _ :: _, h => by
    simp only [movedAll, List.cons.injEq] at h
    rw [Tree.moved_injective h.1, movedAll_injective h.2]
end

theorem movedAll_eq (n : Nat) (ts : List (Tree L)) : movedAll n ts = ts.map (Tree.moved n) := by
  induction ts with
  | nil => rfl
  | cons t ts ih => rw [movedAll, ih, List.map_cons]

theorem Tree.moved_node (n : Nat) (l : L) (s e : Nat) (cs : List (Tree L)) :
    (Tree.node l s e cs).moved n = .node l (s + n) (e + n) (cs.map (Tree.moved n)) := by
  rw [Tree.moved, movedAll_eq]

@[simp] theorem Tree.label_moved (n : Nat) (t : Tree L) : (t.moved n).label = t.label := by
  cases t; rfl

@[simp] theorem Tree.start_moved (n : Nat) (t : Tree L) : (t.moved n).start = t.start + n := by
  cases t; rfl

@[simp] theorem Tree.stop_moved (n : Nat) (t : Tree L) : (t.moved n).stop = t.stop + n := by
  cases t; rfl

@[simp] theorem Tree.children_moved (n : Nat) (t : Tree L) :
    (t.moved n).children = t.children.map (Tree.moved n) := by
  cases t; rw [Tree.moved_node]; rfl

/-! ## Frames -/

/-- What surrounds the tokens of a declaration: how far they are into the file, and what
follows them. -/
structure Frame where
  shift : Nat
  rest : List Token
  lastBreak : Option Nat

namespace Frame

/-- Whether a declaration that may end ends before what follows. -/
def Stops (F : Frame) : Prop :=
  ∀ t r, F.rest = t :: r →
    t.kind = .operator .semicolon ∨ (t.kind.isOpening ∧ t.lineBreak ≠ none)

/-- The place before some tokens in a frame. -/
def place (F : Frame) (offset : Nat) (ts : List Token) : Place :=
  ⟨offset + F.shift, ts.map (Token.moved F.shift) ++ F.rest, F.lastBreak⟩

end Frame

/-- The nodes of a match, and what is to come of the tokens. -/
structure Piece (L : Type) where
  trees : List (Tree L)
  offset : Nat
  tokens : List Token

namespace Frame

/-- A piece in a frame. -/
def found (F : Frame) (x : Piece L) : Found L :=
  ⟨x.trees.map (Tree.moved F.shift), F.place x.offset x.tokens⟩

theorem Stops.follows {F : Frame} (h : F.Stops) {t : Token} {r : List Token} (ht : F.rest = t :: r) :
    t.kind.follows := by
  unfold Kind.follows
  rcases h t r ht with hk | ⟨hk, -⟩ <;> simp [hk]

end Frame

/-! ## Complete declarations -/

/-- Whether some tokens complete a declaration that has come to a spot. -/
def Reaches (x : Spot) (ts : List Token) : Prop :=
  ∃ q : Stage, q.isComplete ∧ x.after (ts.map Token.kind) = ⟨0, q⟩

theorem Reaches.step {v w : View} {t : Token} {ts : List Token} {base : Nat} {outer : Stage}
    (h : Reaches (v.spot base outer) (t :: ts)) (hw : v.step? t.kind = some w) :
    Reaches (w.spot base outer) ts := by
  obtain ⟨q, hq, hafter⟩ := h
  refine ⟨q, hq, ?_⟩
  rw [View.spot_step hw]
  exact hafter

/-- Where a declaration cannot end, there is a token to come. -/
theorem Reaches.ne_nil {v : View} {ts : List Token} {base : Nat} {outer : Stage}
    (h : Reaches (v.spot base outer) ts) (hgoing : v.going = true → ts ≠ [])
    (hv : v.mayEnd = false) : ts ≠ [] := by
  rintro rfl
  obtain ⟨depth, stage, going⟩ := v
  obtain ⟨q, hq, hafter⟩ := h
  cases stage with
  | none =>
    have hd := congrArg Spot.depth hafter
    simp only [View.spot, List.map_nil, Spot.after_nil] at hd
    omega
  | some q' =>
    simp only [View.spot, List.map_nil, Spot.after_nil, Spot.mk.injEq] at hafter
    obtain ⟨rfl, rfl⟩ := hafter
    cases going with
    | true => exact hgoing rfl rfl
    | false => simp [View.mayEnd, hq] at hv

theorem View.going_step? {v w : View} {k : Kind} (h : v.step? k = some w) : w.going = false := by
  unfold View.step? at h
  split at h
  · cases h; rfl
  · split at h
    · split at h
      · cases h
      · cases h; rfl
      · cases h; rfl
    · split at h
      · cases h; rfl
      · cases h; rfl

/-! ## Matches in a frame -/

section Local

variable {g : R → Pattern R L} {firm : R → Bool} {exits : R → Stage → Bool → Option (List Stage)}

/-- At its end, a frame has no token for a pattern that begins with one. -/
theorem Charted.find?_eq_none (hg : Charted g firm exits) {n : Nat} {p : Pattern R L} {c : Place}
    (hp : p.refuses firm) (hc : ∀ t r, c.tokens = t :: r → t.kind = .operator .semicolon) :
    find? g n p c = none := by
  induction n generalizing p with
  | zero => rfl
  | succ n ih =>
    cases p with
    | empty | sameLine | lineEnd | star _ | absent _ => cases hp
    | token kinds =>
      simp only [find?]
      split
      · next t r ht =>
        rw [hc t r ht, if_neg]
        simpa [Pattern.refuses] using hp
      · rfl
    | seq p q => simp only [find?, ih (show p.refuses firm from hp)]
    | alt p q =>
      simp only [Pattern.refuses, Bool.and_eq_true] at hp
      simp only [find?, ih hp.1, ih hp.2]
    | rule r => simp only [find?, ih (hg.refuses r hp)]
    | node l p => simp only [find?, ih (show p.refuses firm from hp), Option.bind_none]
    | hidden p | ahead p => simp only [find?, ih (show p.refuses firm from hp), Option.map_none]

theorem find?_seq_of_none {n : Nat} {p q : Pattern R L} {c : Place} (h : find? g n p c = none) :
    find? g (n + 1) (.seq p q) c = none := by
  simp only [find?, h]

/-- Behind a match without nodes, the nodes are those of the second pattern. -/
theorem find?_seq_of_silent {n : Nat} {p q : Pattern R L} {c d : Place}
    (h : find? g n p c = some ⟨[], d⟩) : find? g (n + 1) (.seq p q) c = find? g n q d := by
  simp only [find?, h]
  cases find? g n q d <;> rfl

theorem find?_seq_sameLine {n : Nat} {q : Pattern R L} {c : Place} :
    find? g (n + 2) (.seq .sameLine q) c =
      if c.lineBreak.isNone then find? g (n + 1) q c else none := by
  have hline : find? g (n + 1) (.sameLine : Pattern R L) c =
      if c.lineBreak.isNone then some ⟨[], c⟩ else none := rfl
  split
  · next h => exact find?_seq_of_silent (by rw [hline, if_pos h])
  · next h => exact find?_seq_of_none (by rw [hline, if_neg h])

/-- Whether the match of a pattern at a view is the same in all frames, and leads to one of
some views. -/
def IsLocal (g : R → Pattern R L) (n : Nat) (p : Pattern R L) (v : View) (vs : List View) : Prop :=
  ∀ base outer offset ts, (v.going = true → ts ≠ []) → Reaches (v.spot base outer) ts →
    ∃ x? : Option (Piece L),
      (∀ F : Frame, F.Stops → find? g n p (F.place offset ts) = x?.map F.found) ∧
      ∀ x ∈ x?, ∃ w ∈ vs, (w.going = true → x.tokens ≠ []) ∧ Reaches (w.spot base outer) x.tokens

/-- The nodes of one piece and another behind it. -/
def Piece.with (x y : Piece L) : Piece L := ⟨x.trees ++ y.trees, y.offset, y.tokens⟩

theorem Frame.found_with (F : Frame) (x y : Piece L) :
    F.found (x.with y) = ⟨(F.found x).trees ++ (F.found y).trees, (F.found y).place⟩ := by
  simp [Frame.found, Piece.with]

theorem IsLocal.mono {n : Nat} {p : Pattern R L} {v : View} {vs ws : List View}
    (h : IsLocal g n p v vs) (hsub : ∀ w ∈ vs, w ∈ ws) : IsLocal g n p v ws := by
  intro base outer offset ts hgoing hreach
  obtain ⟨x?, hx, hw⟩ := h base outer offset ts hgoing hreach
  refine ⟨x?, hx, fun x hmem => ?_⟩
  obtain ⟨w, hw, rest⟩ := hw x hmem
  exact ⟨w, hsub w hw, rest⟩

/-- A token test gives the same answer in all frames. -/
theorem find?_token {n : Nat} {kinds : List Kind} {v : View} {base o : Nat} {outer : Stage}
    {ts : List Token} (hgoing : v.going = true → ts ≠ []) (hreach : Reaches (v.spot base outer) ts)
    (hv : (v.mayEnd && kinds.any Kind.follows) = false) :
    ∃ x? : Option (Piece L),
      (∀ F : Frame, F.Stops →
        find? g n (.token kinds) (F.place o ts) = x?.map F.found) ∧
      ∀ x ∈ x?, ∃ t ∈ ts.head?, t.kind ∈ kinds ∧ x.tokens = ts.tail := by
  cases n with
  | zero => exact ⟨none, fun _ _ => rfl, by rintro _ ⟨⟩⟩
  | succ n =>
    cases ts with
    | nil =>
      refine ⟨none, fun F hF => ?_, by rintro _ ⟨⟩⟩
      have hend : v.mayEnd = true := by
        cases hm : v.mayEnd with
        | true => rfl
        | false => exact absurd rfl (hreach.ne_nil hgoing hm)
      rw [hend, Bool.true_and, List.any_eq_false] at hv
      simp only [find?, Frame.place, List.map_nil, List.nil_append]
      split
      · next t r ht =>
        rw [if_neg]
        · rfl
        · intro hk
          exact hv t.kind (List.contains_iff_mem.mp hk) (hF.follows ht)
      · rfl
    | cons t r =>
      by_cases hk : t.kind ∈ kinds
      · refine ⟨some ⟨[], t.stop, r⟩, fun F _ => ?_, ?_⟩
        · have hk' : kinds.contains (t.moved F.shift).kind := List.contains_iff_mem.mpr hk
          simp only [find?, Frame.place, List.map_cons, List.cons_append, hk', if_true]
          rfl
        · intro x hx
          cases hx
          exact ⟨t, rfl, hk, rfl⟩
      · refine ⟨none, fun F _ => ?_, by rintro _ ⟨⟩⟩
        have hk' : ¬ kinds.contains (t.moved F.shift).kind := fun h => hk (List.contains_iff_mem.mp h)
        simp only [find?, Frame.place, List.map_cons, List.cons_append, if_neg hk', Option.map_none]

/-- One pattern behind another is local if both are. -/
theorem IsLocal.seq {n : Nat} {p q : Pattern R L} {v : View} {vs ws : List View}
    (hp : IsLocal g n p v vs) (hq : ∀ w ∈ vs, IsLocal g n q w ws) :
    IsLocal g (n + 1) (.seq p q) v ws := by
  intro base outer offset ts hgoing hreach
  obtain ⟨x?, hx, hw⟩ := hp base outer offset ts hgoing hreach
  cases x? with
  | none => exact ⟨none, fun F hF => by simp only [find?, hx F hF, Option.map_none], by rintro _ ⟨⟩⟩
  | some x =>
    obtain ⟨w, hmem, hgoing', hreach'⟩ := hw x rfl
    obtain ⟨y?, hy, hw'⟩ := hq w hmem base outer x.offset x.tokens hgoing' hreach'
    refine ⟨y?.map x.with, fun F hF => ?_, ?_⟩
    · have hyF := hy F hF
      simp only [find?, hx F hF, Option.map_some]
      rw [show (F.found x).place = F.place x.offset x.tokens from rfl, hyF]
      cases y? with
      | none => rfl
      | some y =>
        simp only [Option.map_some, Frame.found_with]
    · intro z hz
      obtain ⟨y, hy', rfl⟩ := Option.map_eq_some_iff.mp hz
      exact hw' y hy'

theorem IsLocal.alt {n : Nat} {p q : Pattern R L} {v : View} {vs : List View}
    (hp : IsLocal g n p v vs) (hq : IsLocal g n q v vs) : IsLocal g (n + 1) (.alt p q) v vs := by
  intro base outer offset ts hgoing hreach
  obtain ⟨x?, hx, hw⟩ := hp base outer offset ts hgoing hreach
  cases x? with
  | some x => exact ⟨some x, fun F hF => by simp only [find?, hx F hF, Option.map_some], hw⟩
  | none =>
    obtain ⟨y?, hy, hw'⟩ := hq base outer offset ts hgoing hreach
    exact ⟨y?, fun F hF => by simp only [find?, hx F hF, Option.map_none, hy F hF], hw'⟩

/-- A repetition is local at a view if its pattern leads from it to such views. -/
theorem IsLocal.star {n : Nat} {p : Pattern R L} {v : View} {vs ws : List View} (hv : v ∈ vs)
    (hsub : ∀ w ∈ ws, w ∈ vs) (hp : IsLocal g n p v ws)
    (hstar : ∀ w ∈ vs, IsLocal g n p.star w vs) : IsLocal g (n + 1) p.star v vs := by
  intro base outer offset ts hgoing hreach
  obtain ⟨x?, hx, hw⟩ := hp base outer offset ts hgoing hreach
  cases x? with
  | none =>
    refine ⟨some ⟨[], offset, ts⟩, fun F hF => ?_, ?_⟩
    · simp only [find?, hx F hF, Option.map_none]
      rfl
    · intro x hx'
      cases hx'
      exact ⟨v, hv, hgoing, hreach⟩
  | some x =>
    obtain ⟨w, hmem, hgoing', hreach'⟩ := hw x rfl
    obtain ⟨y?, hy, hw'⟩ := hstar w (hsub w hmem) base outer x.offset x.tokens hgoing' hreach'
    refine ⟨y?.map x.with, fun F hF => ?_, ?_⟩
    · simp only [find?, hx F hF, Option.map_some]
      rw [show (F.found x).place = F.place x.offset x.tokens from rfl, hy F hF]
      cases y? with
      | none => rfl
      | some y => simp only [Option.map_some, Frame.found_with]
    · intro z hz
      obtain ⟨y, hy', rfl⟩ := Option.map_eq_some_iff.mp hz
      exact hw' y hy'

/-- A rule is local if its pattern is, at the view that the tables show of it. -/
theorem IsLocal.rule (hg : Charted g firm exits) {n : Nat} {r : R} {v : View} {vs : List View}
    (hv : (Pattern.rule r : Pattern R L).flow firm exits v = some vs)
    (h : ∀ w ws, (g r).flow firm exits w = some ws → IsLocal g n (g r) w ws) :
    IsLocal g (n + 1) (.rule r) v vs := by
  obtain ⟨depth, stage, going⟩ := v
  intro base outer offset ts hgoing hreach
  by_cases hout : depth = 0 ∧ ∃ q, stage = some q
  · obtain ⟨rfl, q, rfl⟩ := hout
    simp only [Pattern.flow, Option.map_eq_some_iff] at hv
    obtain ⟨qs, hqs, rfl⟩ := hv
    obtain ⟨ws, hws, hlead⟩ := (Pattern.leadsTo_iff firm exits).mp (hg.outside r q going qs hqs)
    obtain ⟨x?, hx, hw⟩ := h _ ws hws base outer offset ts hgoing hreach
    refine ⟨x?, fun F hF => hx F hF, fun x hmem => ?_⟩
    obtain ⟨w, hw, -, hreach'⟩ := hw x hmem
    obtain ⟨hd, hs⟩ := hlead w hw
    obtain ⟨q', hq', hs⟩ := List.mem_map.mp hs
    refine ⟨⟨0, some q', false⟩, List.mem_map_of_mem hq', (absurd · Bool.false_ne_true), ?_⟩
    have hspot : w.spot base outer = ⟨0, q'⟩ := by simp only [View.spot, ← hs, hd]
    rw [hspot] at hreach'
    exact hreach'
  · have hv : vs = [⟨depth, stage, false⟩] := by
      unfold Pattern.flow at hv
      split at hv
      · next q hd hs => exact absurd ⟨hd, q, hs⟩ hout
      · exact (Option.some.inj hv).symm
    subst hv
    obtain ⟨base', outer', hview⟩ := View.exists_inside (v := ⟨depth, stage, going⟩)
      (fun q hd hs => hout ⟨hd, q, hs⟩) base outer
    obtain ⟨ws, hws, hlead⟩ := (Pattern.leadsTo_iff firm exits).mp (hg.inside r)
    obtain ⟨x?, hx, hw⟩ := h _ ws hws base' outer' offset ts
      (absurd · Bool.false_ne_true) (by rw [hview ⟨0, none, false⟩ rfl rfl]; exact hreach)
    refine ⟨x?, fun F hF => hx F hF, fun x hmem => ?_⟩
    obtain ⟨w, hw, -, hreach'⟩ := hw x hmem
    obtain ⟨hd, hs⟩ := hlead w hw
    refine ⟨_, List.mem_singleton.mpr rfl, (absurd · Bool.false_ne_true), ?_⟩
    rw [hview w hd (List.mem_singleton.mp hs)] at hreach'
    exact hreach'

theorem IsLocal.empty {n : Nat} {v : View} : IsLocal g (n + 1) (.empty : Pattern R L) v [v] := by
  intro base outer offset ts hgoing hreach
  refine ⟨some ⟨[], offset, ts⟩, fun F hF => rfl, fun x hx => ?_⟩
  cases hx
  exact ⟨v, List.mem_cons_self, hgoing, hreach⟩

theorem IsLocal.token {n : Nat} {kinds : List Kind} {v : View} {vs : List View}
    (hv : (Pattern.token kinds : Pattern R L).flow firm exits v = some vs) :
    IsLocal g (n + 1) (.token kinds) v vs := by
  intro base outer offset ts hgoing hreach
  unfold Pattern.flow at hv
  split at hv
  · cases hv
  · next hcond =>
    rw [Bool.or_eq_true, not_or, Bool.not_eq_true] at hcond
    obtain ⟨x?, hx, hmem⟩ := find?_token (g := g) (n := n + 1) (o := offset) hgoing hreach hcond.1
    refine ⟨x?, hx, fun x hx' => ?_⟩
    obtain ⟨t, ht, hk, htail⟩ := hmem x hx'
    obtain ⟨ys, hys, hsub⟩ := mem_gather hv hk
    obtain ⟨w, hw, rfl⟩ := Option.map_eq_some_iff.mp hys
    refine ⟨w, hsub w List.mem_cons_self, ?_, ?_⟩
    · rw [View.going_step? hw]
      exact (absurd · Bool.false_ne_true)
    · cases ts with
      | nil => cases ht
      | cons u r =>
        cases ht
        rw [htail]
        exact hreach.step hw

/-- Where a token has to follow, the line of a frame goes on as that of the token. -/
theorem IsLocal.sameLine {n : Nat} {v : View} (hend : v.mayEnd = false) :
    IsLocal g (n + 1) (.sameLine : Pattern R L) v [v] := by
  intro base outer offset ts hgoing hreach
  cases ts with
  | nil => exact absurd rfl (hreach.ne_nil hgoing hend)
  | cons t r =>
    refine ⟨if t.lineBreak.isNone then some ⟨[], offset, t :: r⟩ else none, fun F _ => ?_, fun x hx => ?_⟩
    · simp only [find?, Frame.place, Place.lineBreak, List.map_cons, List.cons_append, Token.moved,
        Option.isNone_map]
      split <;> rfl
    · split at hx
      · cases hx
        exact ⟨v, List.mem_cons_self, hgoing, hreach⟩
      · cases hx

theorem IsLocal.lineEnd {n : Nat} {v : View} (hend : v.mayEnd = false) :
    IsLocal g (n + 1) (.lineEnd : Pattern R L) v [v] := by
  intro base outer offset ts hgoing hreach
  cases ts with
  | nil => exact absurd rfl (hreach.ne_nil hgoing hend)
  | cons t r =>
    refine ⟨t.lineBreak.map fun b => ⟨[], b, { t with lineBreak := none } :: r⟩, fun F _ => ?_,
      fun x hx => ?_⟩
    · simp only [find?, Frame.place, Place.lineBreak, List.map_cons, List.cons_append, Token.moved,
        Option.map_map]
      rfl
    · obtain ⟨b, -, rfl⟩ := Option.map_eq_some_iff.mp hx
      exact ⟨v, List.mem_cons_self, fun _ => List.cons_ne_nil _ _, hreach⟩

/-- A pattern that goes on in the line is local if it is where a token follows, and if the end
of the tokens is the end of the frame's line for it. -/
theorem IsLocal.unbroken (hg : Charted g firm exits) {n : Nat} {q : Pattern R L} {v : View}
    {vs : List View} (hcond : q.refuses firm || !v.mayEnd)
    (hq : IsLocal g n q { v with going := true } vs) : IsLocal g (n + 1) (.seq .sameLine q) v vs := by
  intro base outer offset ts hgoing hreach
  cases n with
  | zero => exact ⟨none, fun _ _ => rfl, by rintro _ ⟨⟩⟩
  | succ n =>
    cases ts with
    | nil =>
      -- where the line goes on, nothing but a semicolon can follow
      have hrefuses : q.refuses firm := by
        cases hm : v.mayEnd with
        | false => exact absurd rfl (hreach.ne_nil hgoing hm)
        | true => simpa [hm] using hcond
      refine ⟨none, fun F hF => ?_, by rintro _ ⟨⟩⟩
      rw [find?_seq_sameLine]
      split
      · next hbreak =>
        refine hg.find?_eq_none hrefuses fun t r ht => ?_
        rcases hF t r ht with hk | ⟨-, hne⟩
        · exact hk
        · simp only [Place.lineBreak, ht, Option.isNone_iff_eq_none] at hbreak
          exact absurd hbreak hne
      · rfl
    | cons t r =>
      obtain ⟨x?, hx, hw⟩ := hq base outer offset (t :: r) (fun _ => List.cons_ne_nil t r) hreach
      have hplace : ∀ F : Frame, (F.place offset (t :: r)).lineBreak.isNone = t.lineBreak.isNone := by
        intro F
        simp [Frame.place, Place.lineBreak, Token.moved]
      by_cases hbreak : t.lineBreak.isNone
      · refine ⟨x?, fun F hF => ?_, hw⟩
        rw [find?_seq_sameLine, hplace, if_pos hbreak]
        exact hx F hF
      · refine ⟨none, fun F _ => ?_, by rintro _ ⟨⟩⟩
        rw [find?_seq_sameLine, hplace, if_neg hbreak, Option.map_none]

/-- A node begins at the token that has to follow. -/
theorem IsLocal.node {n : Nat} {l : L} {p : Pattern R L} {v : View} {vs : List View}
    (hend : v.mayEnd = false) (hp : IsLocal g n p v vs) : IsLocal g (n + 1) (.node l p) v vs := by
  intro base outer offset ts hgoing hreach
  obtain ⟨x?, hx, hw⟩ := hp base outer offset ts hgoing hreach
  cases ts with
  | nil => exact absurd rfl (hreach.ne_nil hgoing hend)
  | cons t r =>
    refine ⟨x?.bind fun x => if t.start < x.offset then
      some ⟨[.node l t.start x.offset x.trees], x.offset, x.tokens⟩ else none, fun F hF => ?_, fun y hy => ?_⟩
    · simp only [find?, hx F hF]
      cases x? with
      | none => rfl
      | some x =>
        have hlt : t.start + F.shift < x.offset + F.shift ↔ t.start < x.offset := Nat.add_lt_add_iff_right
        simp only [Option.map_some, Option.bind_some, nodeOver?, Frame.place, List.map_cons,
          List.cons_append, Frame.found, Token.moved, hlt]
        split <;> simp [Frame.found, Frame.place, Tree.moved_node]
    · obtain ⟨x, hx', hy⟩ := Option.bind_eq_some_iff.mp hy
      split at hy
      · cases hy
        exact hw x hx'
      · cases hy

theorem IsLocal.hidden {n : Nat} {p : Pattern R L} {v : View} {vs : List View} (hp : IsLocal g n p v vs) :
    IsLocal g (n + 1) (.hidden p) v vs := by
  intro base outer offset ts hgoing hreach
  obtain ⟨x?, hx, hw⟩ := hp base outer offset ts hgoing hreach
  refine ⟨x?.map fun x => { x with trees := [] }, fun F hF => ?_, fun y hy => ?_⟩
  · simp only [find?, hx F hF]
    cases x? <;> rfl
  · obtain ⟨x, hx', rfl⟩ := Option.map_eq_some_iff.mp hy
    exact hw x hx'

/-- Whether the match of a pattern at a view is the same in all frames, wherever it leads. -/
def IsTest (g : R → Pattern R L) (n : Nat) (p : Pattern R L) (v : View) : Prop :=
  ∀ base outer offset ts, (v.going = true → ts ≠ []) → Reaches (v.spot base outer) ts →
    ∃ x? : Option (Piece L), ∀ F : Frame, F.Stops → find? g n p (F.place offset ts) = x?.map F.found

theorem IsLocal.isTest {n : Nat} {p : Pattern R L} {v : View} {vs : List View} (h : IsLocal g n p v vs) :
    IsTest g n p v := by
  intro base outer offset ts hgoing hreach
  obtain ⟨x?, hx, -⟩ := h base outer offset ts hgoing hreach
  exact ⟨x?, hx⟩

/-- A test leaves the tokens where they are. -/
theorem IsTest.ahead {n : Nat} {p : Pattern R L} {v : View} (h : IsTest g n p v) :
    IsLocal g (n + 1) (.ahead p) v [v] := by
  intro base outer offset ts hgoing hreach
  obtain ⟨x?, hx⟩ := h base outer offset ts hgoing hreach
  refine ⟨x?.map fun _ => ⟨[], offset, ts⟩, fun F hF => ?_, fun y hy => ?_⟩
  · simp only [find?, hx F hF]
    cases x? <;> rfl
  · obtain ⟨x, -, rfl⟩ := Option.map_eq_some_iff.mp hy
    exact ⟨v, List.mem_cons_self, hgoing, hreach⟩

theorem IsTest.absent {n : Nat} {p : Pattern R L} {v : View} (h : IsTest g n p v) :
    IsLocal g (n + 1) (.absent p) v [v] := by
  intro base outer offset ts hgoing hreach
  obtain ⟨x?, hx⟩ := h base outer offset ts hgoing hreach
  refine ⟨if x?.isNone then some ⟨[], offset, ts⟩ else none, fun F hF => ?_, fun y hy => ?_⟩
  · simp only [find?, hx F hF, Option.isNone_map]
    split <;> rfl
  · split at hy
    · cases hy
      exact ⟨v, List.mem_cons_self, hgoing, hreach⟩
    · cases hy

/-- A test for tokens that cannot follow the end of a frame is the same in all frames. -/
theorem isTest_token {n : Nat} {kinds : List Kind} {v : View}
    (h : (v.mayEnd && kinds.any Kind.follows) = false) :
    IsTest g n (.token kinds : Pattern R L) v := by
  intro base outer offset ts hgoing hreach
  obtain ⟨x?, hx, -⟩ := find?_token (g := g) (n := n) (o := offset) hgoing hreach h
  exact ⟨x?, hx⟩

/-- Every pattern is local at the views that its tables know. -/
theorem Charted.isLocal (hg : Charted g firm exits) (n : Nat) :
    (∀ (p : Pattern R L) v vs, p.flow firm exits v = some vs → IsLocal g n p v vs) ∧
    ∀ (p : Pattern R L) v vs, Closed (p.flow firm exits) vs → v ∈ vs → IsLocal g n p.star v vs := by
  induction n with
  | zero =>
    have hzero : ∀ p v vs, IsLocal g 0 p v vs := fun p v vs base outer offset ts _ _ =>
      ⟨none, fun _ _ => rfl, by rintro _ ⟨⟩⟩
    exact ⟨fun p v vs _ => hzero p v vs, fun p v vs _ _ => hzero _ v vs⟩
  | succ n ih =>
    have hstar : ∀ (p : Pattern R L) v vs, Closed (p.flow firm exits) vs → v ∈ vs →
        IsLocal g (n + 1) p.star v vs := by
      intro p v vs hclosed hv
      obtain ⟨ws, hws, hsub⟩ := hclosed v hv
      exact .star hv hsub (ih.1 p v ws hws) fun w hw => ih.2 p w vs hclosed hw
    refine ⟨fun p v vs hv => ?_, hstar⟩
    cases p with
    | token kinds => exact .token hv
    | star p =>
      obtain ⟨hsub, hclosed⟩ := closed_closure hv
      exact hstar p v vs hclosed (hsub v List.mem_cons_self)
    | rule r => exact .rule hg hv fun w ws hws => ih.1 (g r) w ws hws
    | hidden p => exact .hidden (ih.1 p v vs hv)
    | empty =>
      cases hv
      exact .empty
    | sameLine =>
      unfold Pattern.flow at hv
      split at hv
      · cases hv
      · next hend =>
        cases hv
        exact .sameLine (Bool.eq_false_iff.mpr hend)
    | lineEnd =>
      unfold Pattern.flow at hv
      split at hv
      · cases hv
      · next hend =>
        cases hv
        exact .lineEnd (Bool.eq_false_iff.mpr hend)
    | node l p =>
      unfold Pattern.flow at hv
      split at hv
      · cases hv
      · next hend => exact .node (Bool.eq_false_iff.mpr hend) (ih.1 p v vs hv)
    | seq p q =>
      unfold Pattern.flow at hv
      split at hv
      · next hs =>
        obtain rfl := Pattern.eq_sameLine hs
        split at hv
        · next hcond => exact .unbroken hg hcond (ih.1 q { v with going := true } vs hv)
        · cases hv
      · split at hv
        · cases hv
        · next ws hws =>
          refine .seq (ih.1 p v ws hws) fun w hw => ?_
          obtain ⟨xs, hxs, hsub⟩ := mem_gather hv hw
          exact (ih.1 q w xs hxs).mono hsub
    | alt p q =>
      unfold Pattern.flow at hv
      split at hv
      · next hvs hws =>
        cases hv
        exact .alt ((ih.1 p v _ hvs).mono fun w hw => by simp [hw])
          ((ih.1 q v _ hws).mono fun w hw => by simp [hw])
      · cases hv
    | ahead p =>
      unfold Pattern.flow at hv
      split at hv
      · next kinds hk =>
        split at hv
        · cases hv
        · next hcond =>
          cases hv
          obtain rfl := Pattern.eq_token hk
          exact (isTest_token (Bool.eq_false_iff.mpr hcond)).ahead
      · obtain ⟨ws, hws, rfl⟩ := Option.map_eq_some_iff.mp hv
        exact (ih.1 p v ws hws).isTest.ahead
    | absent p =>
      unfold Pattern.flow at hv
      obtain ⟨ws, hws, rfl⟩ := Option.map_eq_some_iff.mp hv
      exact (ih.1 p v ws hws).isTest.absent

end Local

/-! ## Declarations in a frame -/

/-- The place before a declaration in a frame: its first word, and the rest of its tokens. -/
def Frame.opened (F : Frame) (offset : Nat) (lineBreak : Option Nat) (word : Token)
    (ts : List Token) : Place :=
  ⟨offset, { word.moved F.shift with lineBreak } :: (ts.map (Token.moved F.shift) ++ F.rest),
    F.lastBreak⟩

namespace Grammar

open Pattern

/-- Whether a label says that a node is a declaration, an import or a package clause. -/
def IsOpened (l : Label) : Prop := l ∈ openings.map Opening.label

/-- Whether the match of a pattern at some tokens is the same in all frames. -/
def IsFixed (n : Nat) (p : P) (word : Token) (ts : List Token) : Prop :=
  ∃ x? : Option (Piece Label), ∀ F : Frame, F.Stops → ∀ offset lineBreak,
    find? rules n p (F.opened offset lineBreak word ts) = x?.map F.found

/-- Whether the match is the same in all frames, unless it is no declaration in any. -/
def Settles (n : Nat) (p : P) (word : Token) (ts : List Token) : Prop :=
  IsFixed n p word ts ∨ ∀ F : Frame, F.Stops → ∀ offset lineBreak f,
    find? rules n p (F.opened offset lineBreak word ts) = some f → ∀ t ∈ f.trees, ¬ IsOpened t.label

theorem find?_opening {n : Nat} {o : Opening} {c : Place} {t : Token} {r : List Token}
    (hc : c.tokens = t :: r) :
    find? rules (n + 3) o.pattern c =
      if t.kind = .keyword o.word then
        (find? rules (n + 1) o.rest ⟨t.stop, r, c.lastBreak⟩).bind (nodeOver? o.label c)
      else none := by
  have hword : find? rules (n + 1) (keyword o.word : P) c =
      if t.kind = .keyword o.word then some ⟨[], ⟨t.stop, r, c.lastBreak⟩⟩ else none := by
    unfold keyword
    simp only [find?, hc, List.contains_cons, List.contains_nil, Bool.or_false, beq_iff_eq]
  have hseq : find? rules (n + 2) (.seq (keyword o.word) o.rest) c =
      if t.kind = .keyword o.word then find? rules (n + 1) o.rest ⟨t.stop, r, c.lastBreak⟩
      else none := by
    split
    · next h => exact find?_seq_of_silent (by rw [hword, if_pos h])
    · next h => exact find?_seq_of_none (by rw [hword, if_neg h])
  show (find? rules (n + 2) (.seq (keyword o.word) o.rest) c).bind _ = _
  rw [hseq]
  split <;> rfl

/-- The tokens behind an opening word are matched the same in all frames. -/
theorem isFixed_opening {o : Opening} (ho : o ∈ openings) (n : Nat) {word : Token}
    {ts : List Token} (h : word.kind = .keyword o.word → Reaches ⟨0, o.stage⟩ ts) :
    IsFixed n o.pattern word ts := by
  match n with
  | 0 | 1 | 2 => exact ⟨none, fun F _ offset lineBreak => rfl⟩
  | n + 3 =>
    by_cases hword : word.kind = .keyword o.word
    · obtain ⟨ws, hws, -⟩ := (leadsTo_iff isFirm exits).mp (o.leadsTo_complete ho)
      obtain ⟨x?, hx, -⟩ := (charted.isLocal (n + 1)).1 o.rest _ ws hws 0 .closed word.stop ts nofun
        (h hword)
      refine ⟨x?.bind fun x => if word.start < x.offset then
        some ⟨[.node o.label word.start x.offset x.trees], x.offset, x.tokens⟩ else none,
        fun F hF offset lineBreak => ?_⟩
      rw [find?_opening (c := F.opened offset lineBreak word ts) rfl,
        if_pos (show (word.moved F.shift).kind = _ from hword)]
      have hrest := hx F hF
      unfold Frame.place at hrest
      simp only [Frame.opened, Token.moved, hrest]
      cases x? with
      | none => rfl
      | some x =>
        have hlt : word.start + F.shift < x.offset + F.shift ↔ word.start < x.offset :=
          Nat.add_lt_add_iff_right
        simp only [Option.map_some, Option.bind_some, nodeOver?, Frame.found, Frame.place, hlt]
        split <;> simp [Frame.found, Frame.place, Tree.moved_node]
    · refine ⟨none, fun F _ offset lineBreak => ?_⟩
      rw [find?_opening (c := F.opened offset lineBreak word ts) rfl,
        if_neg (show (word.moved F.shift).kind ≠ _ from hword)]
      rfl

theorem Settles.alt {n : Nat} {p q : P} {word : Token} {ts : List Token}
    (hp : IsFixed n p word ts) (hq : Settles n q word ts) : Settles (n + 1) (.alt p q) word ts := by
  obtain ⟨x?, hx⟩ := hp
  cases x? with
  | some x =>
    refine Or.inl ⟨some x, fun F hF offset lineBreak => ?_⟩
    simp only [find?, hx F hF, Option.map_some]
  | none =>
    rcases hq with ⟨y?, hy⟩ | hq
    · refine Or.inl ⟨y?, fun F hF offset lineBreak => ?_⟩
      simp only [find?, hx F hF, Option.map_none, hy F hF]
    · refine Or.inr fun F hF offset lineBreak f hf => ?_
      simp only [find?, hx F hF, Option.map_none] at hf
      exact hq F hF offset lineBreak f hf

theorem any_cons (p : P) {ps : List P} (h : ps ≠ []) : any (p :: ps) = .alt p (any ps) := by
  cases ps with
  | nil => exact absurd rfl h
  | cons q ps => rfl

/-- A choice of openings and other patterns settles if the others do. -/
theorem settles_any {os : List Opening} {ps : List P} {word : Token} {ts : List Token} (hps : ps ≠ [])
    (hos : ∀ o ∈ os, ∀ n, IsFixed n o.pattern word ts) (h : ∀ n, Settles n (any ps) word ts) (n : Nat) :
    Settles n (any (os.map Opening.pattern ++ ps)) word ts := by
  induction os generalizing n with
  | nil => exact h n
  | cons o os ih =>
    rw [List.map_cons, List.cons_append, any_cons _ (by simp [hps])]
    cases n with
    | zero => exact Or.inl ⟨none, fun F _ offset lineBreak => rfl⟩
    | succ n =>
      exact .alt (hos o List.mem_cons_self n) (ih (fun o' ho' => hos o' (List.mem_cons_of_mem _ ho')) n)

/-- A declaration is matched the same in all frames, if its tokens complete it. -/
theorem settles_item {w : Token} {s : List Token} (n : Nat)
    (h : ∀ o ∈ openings, w.kind = .keyword o.word → Reaches ⟨0, o.stage⟩ s) :
    Settles n item w s := by
  have hstatement : ∀ n, Settles n (any [.rule .statement]) w s := by
    intro n
    obtain ⟨ps, hne, hstatement, hps⟩ := statement_eq
    have hothers : ∀ m, Settles m (any ps) w s := by
      intro m
      refine Or.inr fun F _ offset lineBreak f hf t ht => ?_
      obtain ⟨p, hp, hm⟩ := (matches_of_find? hf).of_any
      exact hm.label (hps p hp) t ht
    match n with
    | 0 => exact Or.inl ⟨none, fun F _ offset lineBreak => rfl⟩
    | n + 1 =>
      have hsettles : Settles n statement w s := by
        rw [hstatement]
        exact settles_any hne (fun o ho n => isFixed_opening (List.mem_append_right _ ho) n
          (h o (List.mem_append_right _ ho))) hothers n
      exact hsettles
  rw [item_eq]
  exact settles_any (List.cons_ne_nil _ _) (fun o ho n => isFixed_opening (List.mem_append_left _ ho) n
    (h o (List.mem_append_left _ ho))) hstatement n

/-- A declaration is matched by one of the openings. -/
theorem exists_opening {c d : Place} {t : Node} (h : Matches rules item c ⟨[t], d⟩)
    (hl : IsOpened t.label) : ∃ o ∈ openings, Matches rules o.pattern c ⟨[t], d⟩ := by
  rw [item_eq] at h
  obtain ⟨p, hp, hm⟩ := h.of_any
  rw [List.mem_append, List.mem_singleton, List.mem_map] at hp
  rcases hp with ⟨o, ho, rfl⟩ | rfl
  · exact ⟨o, List.mem_append_left _ ho, hm⟩
  · obtain ⟨ps, -, hstatement, hps⟩ := statement_eq
    cases hm with
    | rule hm =>
      rw [show rules .statement = statement from rfl, hstatement] at hm
      obtain ⟨p, hp, hm⟩ := hm.of_any
      rw [List.mem_append, List.mem_map] at hp
      rcases hp with ⟨o, ho, rfl⟩ | hp
      · exact ⟨o, List.mem_append_right _ ho, hm⟩
      · exact absurd hl (hm.label (hps p hp) t List.mem_cons_self)

/-- The tokens behind the first word of a declaration complete it. -/
theorem reaches_of_matches {o : Opening} (ho : o ∈ openings) {c : Place} {word : Token}
    {ts rest : List Token} {f : Found Label} (h : Matches rules o.pattern c f)
    (hc : c.tokens.map Token.kind = word.kind :: (ts.map Token.kind ++ rest.map Token.kind))
    (hrest : f.place.tokens.length = rest.length) :
    word.kind = .keyword o.word ∧ Reaches ⟨0, o.stage⟩ ts := by
  cases h with
  | node h _ _ =>
    cases h with
    | @seq _ _ _ f1 f2 hword hm =>
      cases hword with
      | @token _ _ u r hu hk =>
        rw [List.mem_singleton] at hk
        rw [hu, List.map_cons, List.cons.injEq] at hc
        refine ⟨hc.1 ▸ hk, ?_⟩
        obtain ⟨ws, hws, hlead⟩ := (leadsTo_iff isFirm exits).mp (o.leadsTo_complete ho)
        obtain ⟨w, hw, ks, hks, -, hspot⟩ := (hm.leads charted).1 _ ws hws 0 .closed
        obtain ⟨hd, hs⟩ := hlead w hw
        obtain ⟨q, hq, hs⟩ := List.mem_map.mp hs
        refine ⟨q, (List.mem_filter.mp hq).2, ?_⟩
        have hlen := congrArg List.length hks
        have htail : ts.map Token.kind ++ rest.map Token.kind = ks ++ f2.place.kinds := by
          rw [← hc.2, ← hks]
          rfl
        obtain ⟨rfl, -⟩ := List.append_inj' htail (by simpa [Place.kinds] using hrest.symm)
        rw [show (⟨0, o.stage⟩ : Spot) = View.spot 0 .closed ⟨0, some o.stage, false⟩ from rfl, ← hspot]
        simp only [View.spot, ← hs, hd]

/-- One word leads to one stage. -/
theorem stage_eq {o o' : Opening} (ho : o ∈ openings) (ho' : o' ∈ openings) (h : o.word = o'.word) :
    o.stage = o'.stage := by
  have hall : ∀ o ∈ openings, ∀ o' ∈ openings, o.word = o'.word → o.stage = o'.stage := by decide
  exact hall o ho o' ho' h

end Grammar

theorem item?_eq_some_iff {c d : Place} {t : Node} :
    item? c = some (t, d) ↔
      find? Grammar.rules (stepBound c.tokens) Grammar.item c = some ⟨[t], d⟩ := by
  constructor
  · intro h
    have hm := matches_of_item? h
    unfold item? at h
    split at h
    · next t' ts c' hf =>
      cases h
      obtain ⟨l, cs, u, r, -, -, ht⟩ := item_makesNode.eq_node (matches_of_find? hf)
      simp only [List.cons.injEq] at ht
      rw [hf, ht.2]
    · cases h
  · intro h
    unfold item?
    rw [h]

/-- A declaration that is read in one frame is read in every frame. -/
theorem item?_opened {F G : Frame} (hF : F.Stops) (hG : G.Stops) {o m : Nat} {b e : Option Nat}
    {word : Token} {ts : List Token} {t : Node} {d : Place}
    (h : item? (F.opened o b word ts) = some (t, d)) (hd : d.tokens.length = F.rest.length)
    (hl : Grammar.IsOpened t.label) :
    ∃ (u : Node) (stop : Nat), t = u.moved F.shift ∧ d = F.place stop [] ∧
      item? (G.opened m e word ts) = some (u.moved G.shift, G.place stop []) := by
  have hm := matches_of_item? h
  obtain ⟨op, hop, hmop⟩ := Grammar.exists_opening hm hl
  have hkinds : (F.opened o b word ts).tokens.map Token.kind =
      word.kind :: (ts.map Token.kind ++ F.rest.map Token.kind) := by
    simp [Frame.opened, Token.moved]
  obtain ⟨hword, hreach⟩ := Grammar.reaches_of_matches hop hmop hkinds hd
  have hsettles := Grammar.settles_item (w := word) (s := ts)
    (max (stepBound (F.opened o b word ts).tokens) (stepBound (G.opened m e word ts).tokens))
    fun op' hop' hword' => by
      rw [hword, Kind.keyword.injEq] at hword'
      rw [← Grammar.stage_eq hop hop' hword']
      exact hreach
  have hfound := item?_eq_some_iff.mp h
  rw [← Grammar.find?_item (Nat.le_max_left _ (stepBound (G.opened m e word ts).tokens))] at hfound
  rcases hsettles with ⟨x?, hx⟩ | hnone
  · rw [hx F hF, Option.map_eq_some_iff] at hfound
    obtain ⟨x, rfl, hxF⟩ := hfound
    obtain ⟨trees, stop, tokens⟩ := x
    simp only [Frame.found, Found.mk.injEq] at hxF
    obtain ⟨htrees, rfl⟩ := hxF
    obtain ⟨u, us, rfl, rfl, hus⟩ := List.map_eq_cons_iff.mp htrees
    obtain rfl := List.map_eq_nil_iff.mp hus
    obtain rfl : tokens = [] := by
      rw [← List.length_eq_zero_iff]
      simpa [Frame.place] using hd
    refine ⟨u, stop, rfl, rfl, item?_eq_some_iff.mpr ?_⟩
    rw [← Grammar.find?_item (Nat.le_max_right (stepBound (F.opened o b word ts).tokens) _), hx G hG]
    rfl
  · exact absurd hl (hnone F hF o b _ hfound t List.mem_cons_self)

/-- What a declaration is read as does not depend on the frame. -/
theorem item?_framed {F : Frame} (hF : F.Stops) {o : Nat} {b : Option Nat} {word : Token}
    {ts : List Token} {t : Node} {d : Place} (h : item? (F.opened o b word ts) = some (t, d))
    (hd : d.tokens.length = F.rest.length) (hl : Grammar.IsOpened t.label) :
    ∃ (u : Node) (stop : Nat), t = u.moved F.shift ∧ d = F.place stop [] ∧
      ∀ G : Frame, G.Stops → ∀ m e,
        item? (G.opened m e word ts) = some (u.moved G.shift, G.place stop []) := by
  obtain ⟨u, stop, rfl, rfl, -⟩ := item?_opened (m := o) (e := b) hF hF h hd hl
  refine ⟨u, stop, rfl, rfl, fun G hG m e => ?_⟩
  obtain ⟨u', stop', hu, hstop, hG⟩ := item?_opened (m := m) (e := e) hF hG h hd hl
  obtain rfl := Tree.moved_injective hu
  obtain rfl : stop = stop' := Nat.add_right_cancel (congrArg Place.offset hstop)
  exact hG

end GoSplice.Syntax
