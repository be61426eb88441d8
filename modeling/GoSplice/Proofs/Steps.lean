import GoSplice.Proofs.Match
import GoSplice.Syntax.Items

/-!
# The steps of a match

A match goes through a bounded number of patterns between one token and the
next, so the steps that a place is given are enough, and more change nothing:

    steps p + bound * tokens ≤ n ≤ m → find? g m p c = find? g n p c   (Paced.find?_eq)
    item? c is found with any number of steps from stepBound on        (find?_item)

`skips` says which patterns may match without a token, `steps` how many patterns
lie between a pattern and the first token it takes.
-/

namespace GoSplice.Syntax

variable {R L : Type}

/-! ## Steps before a token -/

namespace Pattern

section Tables

variable (loose : R → Bool) (rank : R → Nat) (bound : Nat)

/-- Whether the pattern may match without a token, given the rules that may. -/
def skips : Pattern R L → Bool
  | .token _ => false
  | .seq p q => p.skips && q.skips
  | .alt p q => p.skips || q.skips
  | .rule r => loose r
  | .node _ p | .hidden p => p.skips
  | _ => true

/-- The patterns to go through before a token is taken, given those of the rules. -/
def steps : Pattern R L → Nat
  | .empty | .token _ | .sameLine | .lineEnd => 1
  | .seq p q => (if p.skips loose then max p.steps q.steps else p.steps) + 1
  | .alt p q => max p.steps q.steps + 1
  | .rule r => rank r + 1
  | .star p | .node _ p | .hidden p | .ahead p | .absent p => p.steps + 1

/-- Whether the parts of the pattern keep to a bound, and its repetitions take tokens. -/
def keepsTo : Pattern R L → Bool
  | .seq p q => p.keepsTo && q.keepsTo && q.steps loose rank ≤ bound
  | .alt p q => p.keepsTo && q.keepsTo
  | .star p => p.keepsTo && !p.skips loose && p.steps loose rank + 1 ≤ bound
  | .node _ p | .hidden p | .ahead p | .absent p => p.keepsTo
  | _ => true

end Tables

end Pattern

/-- A grammar whose rules keep to a bound. -/
structure Paced (g : R → Pattern R L) (loose : R → Bool) (rank : R → Nat) (bound : Nat) : Prop where
  skips : ∀ r, (g r).skips loose → loose r
  steps : ∀ r, (g r).steps loose rank ≤ rank r
  keepsTo : ∀ r, (g r).keepsTo loose rank bound

section Paced

variable {g : R → Pattern R L} {loose : R → Bool} {rank : R → Nat} {bound : Nat}

theorem Place.afterBreak_length (c : Place) (b : Nat) :
    (c.afterBreak b).tokens.length = c.tokens.length := by
  unfold Place.afterBreak
  split
  · next t r ht => rw [ht]; rfl
  · next ht => rw [ht]

theorem Matches.length_le {p : Pattern R L} {c : Place} {f : Found L} (h : Matches g p c f) :
    f.place.tokens.length ≤ c.tokens.length := by
  induction h with
  | empty | sameLine _ | starNil | ahead _ _ | absent => exact Nat.le_refl _
  | token ht _ =>
    rw [ht, List.length_cons]
    exact Nat.le_succ _
  | lineEnd _ => exact Nat.le_of_eq (Place.afterBreak_length _ _)
  | seq _ _ ih1 ih2 | starCons _ _ ih1 ih2 => exact Nat.le_trans ih2 ih1
  | altFirst _ ih | altSecond _ ih | rule _ ih | node _ _ _ ih | hidden _ ih => exact ih

/-- A pattern that skips nothing takes a token. -/
theorem Paced.length_lt (hg : Paced g loose rank bound) {p : Pattern R L} {c : Place} {f : Found L}
    (h : Matches g p c f) (hp : p.skips loose = false) :
    f.place.tokens.length < c.tokens.length := by
  induction h with
  | empty | sameLine _ | lineEnd _ | starNil | starCons _ _ _ _ | ahead _ _ | absent => cases hp
  | token ht _ =>
    rw [ht, List.length_cons]
    exact Nat.lt_succ_self _
  | seq h1 h2 ih1 ih2 =>
    have hle1 := h1.length_le
    have hle2 := h2.length_le
    rw [Pattern.skips, Bool.and_eq_false_iff] at hp
    rcases hp with hp | hp
    · exact Nat.lt_of_le_of_lt hle2 (ih1 hp)
    · exact Nat.lt_of_lt_of_le (ih2 hp) hle1
  | altFirst _ ih =>
    rw [Pattern.skips, Bool.or_eq_false_iff] at hp
    exact ih hp.1
  | altSecond _ ih =>
    rw [Pattern.skips, Bool.or_eq_false_iff] at hp
    exact ih hp.2
  | @rule r _ _ _ ih =>
    refine ih (Bool.eq_false_iff.mpr fun hs => ?_)
    exact Bool.eq_false_iff.mp hp (hg.skips r hs)
  | node _ _ _ ih | hidden _ ih => exact ih hp

/-- With enough steps a match does not depend on their number. -/
theorem Paced.find?_eq (hg : Paced g loose rank bound) {n m : Nat} {p : Pattern R L} {c : Place}
    (hp : p.keepsTo loose rank bound)
    (hn : p.steps loose rank + bound * c.tokens.length ≤ n) (hm : n ≤ m) :
    find? g m p c = find? g n p c := by
  induction n generalizing m p c with
  | zero =>
    have hpos : 0 < p.steps loose rank := by cases p <;> simp [Pattern.steps]
    omega
  | succ n ih =>
    obtain ⟨m, rfl⟩ : ∃ m', m = m' + 1 := ⟨m - 1, by omega⟩
    have hm : n ≤ m := by omega
    -- a part that stands behind a token has the steps of one token more
    have hbehind : ∀ {q : Pattern R L} {d : Place}, q.keepsTo loose rank bound →
        q.steps loose rank ≤ bound → d.tokens.length < c.tokens.length →
        bound * c.tokens.length ≤ n → find? g m q d = find? g n q d := by
      intro q d hq hs hlt hle
      refine ih hq ?_ hm
      have hmul : bound * (d.tokens.length + 1) ≤ bound * c.tokens.length := Nat.mul_le_mul_left _ hlt
      rw [Nat.mul_add, Nat.mul_one] at hmul
      omega
    have hinside : ∀ {q : Pattern R L}, q.keepsTo loose rank bound →
        q.steps loose rank + 1 ≤ p.steps loose rank → find? g m q c = find? g n q c :=
      fun hq hs => ih hq (by omega) hm
    cases p with
    | empty | token _ | sameLine | lineEnd => rfl
    | seq p q =>
      simp only [Pattern.keepsTo, Bool.and_eq_true, decide_eq_true_eq] at hp
      obtain ⟨⟨hp, hq⟩, hbound⟩ := hp
      have hfirst : find? g m p c = find? g n p c := by
        refine hinside hp ?_
        simp only [Pattern.steps]
        split <;> omega
      simp only [find?, hfirst]
      cases hf : find? g n p c with
      | none => rfl
      | some f =>
        have hmatch := matches_of_find? hf
        have hle := hmatch.length_le
        have hsecond : find? g m q f.place = find? g n q f.place := by
          by_cases hs : p.skips loose
          · refine ih hq ?_ hm
            simp only [Pattern.steps, if_pos hs] at hn
            have := Nat.mul_le_mul_left bound hle
            omega
          · have hlt := hg.length_lt hmatch (Bool.eq_false_iff.mpr hs)
            simp only [Pattern.steps] at hn
            exact hbehind hq hbound hlt (by omega)
        simp only [hsecond]
    | alt p q =>
      simp only [Pattern.keepsTo, Bool.and_eq_true] at hp
      have hfirst : find? g m p c = find? g n p c :=
        hinside hp.1 (by simp only [Pattern.steps]; omega)
      have hsecond : find? g m q c = find? g n q c :=
        hinside hp.2 (by simp only [Pattern.steps]; omega)
      simp only [find?, hfirst, hsecond]
    | star p =>
      have hstar := hp
      simp only [Pattern.keepsTo, Bool.and_eq_true, decide_eq_true_eq, Bool.not_eq_true'] at hp
      obtain ⟨⟨hp, hs⟩, hbound⟩ := hp
      have hfirst : find? g m p c = find? g n p c := hinside hp (Nat.le_refl _)
      simp only [find?, hfirst]
      cases hf : find? g n p c with
      | none => rfl
      | some f =>
        have hlt := hg.length_lt (matches_of_find? hf) hs
        simp only [Pattern.steps] at hn
        have hagain : find? g m p.star f.place = find? g n p.star f.place :=
          hbehind hstar (by simpa only [Pattern.steps] using hbound) hlt (by omega)
        simp only [hagain]
    | rule r =>
      have hsteps := hg.steps r
      have hfirst : find? g m (g r) c = find? g n (g r) c :=
        hinside (hg.keepsTo r) (by simp only [Pattern.steps]; omega)
      simp only [find?, hfirst]
    | node l p | hidden p | ahead p | absent p =>
      have hfirst : find? g m p c = find? g n p c := hinside hp (Nat.le_refl _)
      simp only [find?, hfirst]

end Paced

/-! ## The grammar of files -/

/-- All rules. -/
def Rule.all : List Rule :=
  let flags := [true, false]
  let settings := flags.flatMap fun a => flags.flatMap fun b => flags.map fun c => Setting.mk a b c
  flags.map .type ++ settings.map .expression ++ settings.map .primary ++
    [.typeArguments, .parameters, .literalValue, .statements, .statement, .conditional, .block]

theorem Rule.mem_all (r : Rule) : r ∈ Rule.all := by
  rcases r with b | _ | _ | ⟨a, b, c⟩ | ⟨a, b, c⟩ | _ | _ | _ | _ | _
  case type => cases b <;> decide
  case expression | primary => cases a <;> cases b <;> cases c <;> decide
  all_goals decide

namespace Grammar

/-- A list of statements may be empty. -/
def isLoose : Rule → Bool
  | .statements => true
  | _ => false

/-- The patterns that a rule goes through before it takes a token. -/
def rank : Rule → Nat
  | .type _ => 12
  | .expression _ => 18
  | .primary _ => 15
  | .statement => 39
  | .statements => 43
  | _ => 2

theorem paced : Paced rules isLoose rank 512 := by
  have hall : ∀ r ∈ Rule.all, ((rules r).skips isLoose → isLoose r) ∧
      (rules r).steps isLoose rank ≤ rank r ∧ (rules r).keepsTo isLoose rank 512 := by
    decide +kernel
  exact ⟨fun r => (hall r r.mem_all).1, fun r => (hall r r.mem_all).2.1,
    fun r => (hall r r.mem_all).2.2⟩

/-- More steps than the bound find the same item. -/
theorem find?_item {c : Place} {n : Nat} (h : stepBound c.tokens ≤ n) :
    find? rules n item c = find? rules (stepBound c.tokens) item c := by
  have hitem : item.keepsTo isLoose rank 512 ∧ item.steps isLoose rank ≤ 512 := by
    decide +kernel
  refine paced.find?_eq hitem.1 ?_ h
  unfold stepBound
  have := hitem.2
  omega

end Grammar

end GoSplice.Syntax
