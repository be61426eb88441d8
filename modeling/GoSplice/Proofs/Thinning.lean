import GoSplice.Proofs.Cuts
import GoSplice.Proofs.Extracts

/-!
# Stretches that are taken out

Stretches may be taken out of a text at many places.  Where each place is behind a filler, a
parenthesis or a string, what remains is cut as before, but for blanks that come to stand side by side:

    Thinned a b → lexemes (texts a) = a → lexemes (texts b) = fuse b      (lexemes_thinned)
-/

namespace GoSplice.Syntax

/-! ## Blanks side by side -/

/-- A stretch before others, as one stretch with the first of them where both are blanks. -/
def push (l : Lexeme) : List Lexeme → List Lexeme
  | [] => [l]
  | m :: r => if l.cls = .blank ∧ m.cls = .blank then ⟨.blank, l.text ++ m.text⟩ :: r else l :: m :: r

/-- Stretches with blanks that stand side by side as one. -/
def fuse (ls : List Lexeme) : List Lexeme := ls.foldr push []

@[simp] theorem fuse_nil : fuse [] = [] := rfl

@[simp] theorem fuse_cons (l : Lexeme) (ls : List Lexeme) : fuse (l :: ls) = push l (fuse ls) := rfl

theorem push_of_ne {l : Lexeme} (hl : l.cls ≠ .blank) (ls : List Lexeme) : push l ls = l :: ls := by
  cases ls with
  | nil => rfl
  | cons m r => exact if_neg fun h => hl h.1

/-- The first stretch stays what it is, but for blanks. -/
theorem exists_push (l : Lexeme) (ls : List Lexeme) : ∃ m r, push l ls = m :: r ∧ m.cls = l.cls ∧
    (m = l ∧ r = ls ∨ ∃ n, ls = n :: r ∧ l.cls = .blank ∧ n.cls = .blank ∧ m.text = l.text ++ n.text) := by
  cases ls with
  | nil => exact ⟨l, [], rfl, rfl, .inl ⟨rfl, rfl⟩⟩
  | cons n r =>
    by_cases h : l.cls = .blank ∧ n.cls = .blank
    · exact ⟨_, r, if_pos h, h.1.symm, .inr ⟨n, rfl, h.1, h.2, rfl⟩⟩
    · exact ⟨l, n :: r, if_neg h, rfl, .inl ⟨rfl, rfl⟩⟩

/-- Tokens stay as they are, and blanks apart from each other. -/
theorem fuse_append_cons {l : Lexeme} (hl : l.cls ≠ .blank) (a b : List Lexeme) :
    fuse (a ++ l :: b) = fuse a ++ l :: fuse b := by
  induction a with
  | nil => exact push_of_ne hl _
  | cons m a ih =>
    rw [List.cons_append, fuse_cons, ih, fuse_cons]
    cases hfuse : fuse a with
    | nil => exact if_neg fun h => hl h.2
    | cons n r =>
      by_cases h : m.cls = .blank ∧ n.cls = .blank
      · rw [List.cons_append, push, push, if_pos h, if_pos h]
        rfl
      · rw [List.cons_append, push, push, if_neg h, if_neg h]
        rfl

theorem texts_fuse (ls : List Lexeme) : texts (fuse ls) = texts ls := by
  induction ls with
  | nil => rfl
  | cons l ls ih =>
    rw [fuse_cons, texts_cons, ← ih]
    obtain ⟨m, r, hpush, -, ⟨rfl, rfl⟩ | ⟨n, hn, -, -, htext⟩⟩ := exists_push l (fuse ls)
    · rw [hpush, texts_cons]
    · rw [hpush, hn, texts_cons, texts_cons, htext, List.append_assoc]

/-- Blanks that fuse stand before the same tokens and comments. -/
theorem place_fuse (pos : Nat) (brk : Option Nat) (ls : List Lexeme) : place pos brk (fuse ls) = place pos brk ls := by
  have hpush : ∀ l ms pos brk, place pos brk (push l ms) = place pos brk (l :: ms) := by
    intro l ms pos brk
    cases ms with
    | nil => rfl
    | cons m r =>
      rw [push]
      split
      · next h => simp only [place, h.1, h.2, byteWidth_append, Nat.add_assoc]
      · rfl
  induction ls generalizing pos brk with
  | nil => rfl
  | cons l ls ih =>
    rw [fuse_cons, hpush, place, place]
    simp only [ih]

theorem ne_nil_of_mem_fuse {ls : List Lexeme} (h : ∀ l ∈ ls, l.text ≠ []) : ∀ l ∈ fuse ls, l.text ≠ [] := by
  induction ls with
  | nil => exact List.forall_mem_nil _
  | cons l ls ih =>
    obtain ⟨hl, hls⟩ := List.forall_mem_cons.mp h
    obtain ⟨m, r, hpush, -, ⟨rfl, rfl⟩ | ⟨n, hn, -, -, htext⟩⟩ := exists_push l (fuse ls)
    · rw [fuse_cons, hpush]
      exact List.forall_mem_cons.mpr ⟨hl, ih hls⟩
    · have hrest := ih hls
      rw [hn] at hrest
      rw [fuse_cons, hpush]
      refine List.forall_mem_cons.mpr ⟨?_, (List.forall_mem_cons.mp hrest).2⟩
      rw [htext]
      exact List.append_ne_nil_of_left_ne_nil hl _

/-- Whether no two blanks stand side by side. -/
def Apart (ls : List Lexeme) : Prop :=
  ∀ x l m y, ls = x ++ l :: m :: y → ¬ (l.cls = .blank ∧ m.cls = .blank)

theorem Apart.part {a b c : List Lexeme} (h : Apart (a ++ (b ++ c))) : Apart b := by
  rintro x l m y rfl
  exact h (a ++ x) l m (y ++ c) (by simp)

/-- Stretches that are apart stay as they are before others that fuse. -/
theorem Apart.fuse_append {a b : List Lexeme} {l : Lexeme} (h : Apart (a ++ [l])) :
    fuse (a ++ l :: b) = a ++ fuse (l :: b) := by
  induction a with
  | nil => rfl
  | cons m a ih =>
    have hrest : Apart (a ++ [l]) := Apart.part (a := [m]) (c := []) (by simpa using h)
    rw [List.cons_append, fuse_cons, ih hrest, List.cons_append]
    cases a with
    | nil =>
      obtain ⟨n, r, hpush, hcls, -⟩ := exists_push l (fuse b)
      rw [List.nil_append, fuse_cons, hpush, push, if_neg]
      rw [hcls]
      exact h [] m l [] rfl
    | cons n a => exact if_neg (h [] m n (a ++ [l]) rfl)

theorem Apart.fuse_eq {a : List Lexeme} (h : Apart a) : fuse a = a := by
  rcases List.eq_nil_or_concat a with rfl | ⟨a, l, rfl⟩
  · rfl
  · rw [List.concat_eq_append] at h ⊢
    exact h.fuse_append

/-- The stretches of a text are apart. -/
theorem apart_of_lexemes {s : List Char} {ls : List Lexeme} (h : lexemes s = ls) : Apart ls := by
  rintro x l m y hls ⟨hl, hm⟩
  have hsuffix : lexemes (texts (l :: m :: y)) = l :: m :: y := lexemes_suffix (h.trans hls)
  obtain ⟨-, hhead⟩ := blank_text hsuffix hl
  have hrest : lexemes (texts (m :: y)) = m :: y := lexemes_suffix (a := [l]) hsuffix
  obtain ⟨c, r, n, hc, -, htext, -⟩ := lexemes_eq_cons hrest
  have hblank := (blank_text hrest hm).1 c (by rw [htext]; exact List.mem_cons_self)
  rw [hhead c (by rw [hc]; rfl)] at hblank
  cases hblank

/-! ## Stretches to cut behind -/

/-- Whether what stands behind a stretch may be taken out. -/
def LexemeClass.isJoint (cls : LexemeClass) : Bool :=
  cls.isFiller || cls = .token .text || cls = .token (.operator .leftParen)

theorem measure_text {c : Char} {r : List Char} {n : Nat} (h : measure c r = (.token .text, n)) :
    c = '"' ∧ interpretedEnd r = .closed n ∨ c = '\x60' ∧ rawEnd r = .closed n := by
  have hnumber : ∀ d s, (numberLexeme d s).1 ≠ .token .text := by
    intro d s
    rw [numberLexeme]
    dsimp only
    split <;> simp
  have hoperator : ∀ d s, (operatorLexeme d s).1 ≠ .token .text := by
    intro d s
    rw [operatorLexeme]
    split <;> simp
  have hending : ∀ q e, ofEnding q 0 e = (.token .text, n) → e = .closed n := by
    intro q e he
    cases e <;> cases he
    rfl
  have hword : ∀ s, Kind.ofWord s ≠ .text := by
    intro s
    unfold Kind.ofWord
    dsimp only
    split
    · simp
    · split
      · simp
      · split <;> simp
  unfold measure at h
  split at h
  · cases h
  split at h
  · cases h
  split at h
  · exact absurd (LexemeClass.token.inj (congrArg Prod.fst h)) (hword _)
  split at h
  · exact absurd (congrArg Prod.fst h) (hnumber _ _)
  split at h
  · cases h
  · split at h
    · cases h
    · exact absurd (congrArg Prod.fst h) (hoperator _ _)
  · split at h
    · exact absurd (congrArg Prod.fst h) (hnumber _ _)
    · exact absurd (congrArg Prod.fst h) (hoperator _ _)
  · exact .inl ⟨rfl, hending _ _ h⟩
  · exact .inr ⟨rfl, hending _ _ h⟩
  · split at h <;> cases h
  · exact absurd (congrArg Prod.fst h) (hoperator _ _)

theorem leftParen_word {w : String} (h : (w, Operator.leftParen) ∈ operators) : w = "(" := by
  have hall : operators.all (fun x => x.2 != .leftParen || x.1 == "(") := by decide
  simpa using List.all_eq_true.mp hall _ h

theorem measure_leftParen (y : List Char) : measure '(' y = (.token (.operator .leftParen), 0) := by
  have hop : operatorLexeme '(' y = (.token (.operator .leftParen), 0) := by
    rfl
  rw [measure_operator (by decide) (by decide) (by decide) (by decide) (by decide), hop]

/-- A string or an opening parenthesis is one before whatever text. -/
theorem measure_firm {c : Char} {r : List Char} {k : Kind} {n : Nat} (h : measure c r = (.token k, n))
    (hk : k = .text ∨ k = .operator .leftParen) : (c = '"' ∨ c = '\x60' ∨ c = '(') ∧ n ≤ r.length ∧
      (∀ y, measure c (r.take n ++ y) = (.token k, n)) ∧ (c :: r.take n).getLast? ≠ some '*' := by
  have hlast : ∀ d, (r.take n).getLast? = some d → d ≠ '*' → (c :: r.take n).getLast? ≠ some '*' := by
    intro d hd hne hlast
    rw [List.getLast?_cons, hd] at hlast
    exact hne (Option.some.inj hlast)
  rcases hk with rfl | rfl
  · rcases measure_text h with ⟨rfl, hend⟩ | ⟨rfl, hend⟩
    · obtain ⟨hle, hy⟩ := interpretedEnd_take hend
      refine ⟨.inl rfl, hle, fun y => ?_, hlast _ (interpretedEnd_getLast hend) (by decide)⟩
      rw [measure_string, hy y]
      rfl
    · obtain ⟨hle, hy⟩ := rawEnd_take hend
      refine ⟨.inr (.inl rfl), hle, fun y => ?_, hlast _ (rawEnd_getLast hend) (by decide)⟩
      rw [measure_raw, hy y]
      rfl
  · have hmeasured := measured c r
    rw [h] at hmeasured
    generalize hcls : LexemeClass.token (.operator .leftParen) = cls at hmeasured
    cases hmeasured with
    | @operator w o hc ho =>
      cases hcls
      obtain ⟨hw, hword⟩ := operator_text ho
      obtain rfl := leftParen_word hw
      change c :: _ = ['('] at hword
      have hlast : (c :: r.take ("(".length - 1)).getLast? ≠ some '*' := by
        rw [hword]
        decide
      obtain ⟨rfl, -⟩ := List.cons.inj hword
      exact ⟨.inr (.inr rfl), Nat.zero_le _, fun y => measure_leftParen y, hlast⟩
    | word => exact absurd (LexemeClass.token.inj hcls).symm (Kind.ofWord_ne_operator _ _)
    | other _ hne _ => exact absurd (LexemeClass.token.inj hcls).symm (hne _)
    | _ => cases hcls

theorem isJoint_cases {cls : LexemeClass} (h : cls.isJoint) :
    cls.isFiller ∨ ∃ k, cls = .token k ∧ (k = .text ∨ k = .operator .leftParen) := by
  simp only [LexemeClass.isJoint, Bool.or_eq_true, decide_eq_true_eq] at h
  rcases h with (h | rfl) | rfl
  · exact .inl h
  · exact .inr ⟨_, rfl, .inl rfl⟩
  · exact .inr ⟨_, rfl, .inr rfl⟩

/-- What a stretch to cut behind begins with, and that it ends a comment or with no star. -/
theorem joint_text {s : List Char} {l : Lexeme} {zs : List Lexeme} (h : lexemes s = l :: zs)
    (hl : l.cls.isJoint) (hline : l.cls = .comment → ¬ EndsLine (texts zs)) :
    (∃ c r, l.text = c :: r ∧ (c = '\n' ∨ isSeparator c) ∧ (l.cls ≠ .comment → c ≠ '/')) ∧
      (blockCommentLength? l.text = none → l.text.getLast? ≠ some '*') := by
  rcases isJoint_cases hl with hfiller | ⟨k, hcls, hk⟩
  · exact filler_text h hfiller hline
  · obtain ⟨c, r, n, -, hm, htext, -⟩ := lexemes_eq_cons h
    rw [hcls] at hm
    obtain ⟨hc, -, -, hlast⟩ := measure_firm hm hk
    refine ⟨⟨c, _, htext, .inr ?_, fun _ => ?_⟩, fun _ => htext ▸ hlast⟩ <;>
      rcases hc with rfl | rfl | rfl <;> decide

/-- A stretch to cut behind stays as it is before other text, but for blanks that go on. -/
theorem lexemes_joint {s y : List Char} {l : Lexeme} {zs : List Lexeme} (h : lexemes s = l :: zs)
    (hl : l.cls.isJoint) (hline : l.cls = .comment → ¬ EndsLine (texts zs))
    (hblank : l.cls = .blank → ∀ c ∈ y.head?, isInlineBlank c = false) :
    lexemes (l.text ++ y) = l :: lexemes y := by
  rcases isJoint_cases hl with hfiller | ⟨k, hcls, hk⟩
  · exact lexemes_filler h hfiller hline hblank
  · obtain ⟨c, r, n, -, hm, htext, -⟩ := lexemes_eq_cons h
    rw [hcls] at hm
    obtain ⟨-, hle, hy, -⟩ := measure_firm hm hk
    have hlen : (r.take n).length = n := by rw [List.length_take]; exact Nat.min_eq_left hle
    rw [htext, List.cons_append, lexemes_cons, hy y]
    dsimp only
    rw [List.take_left' hlen, List.drop_left' hlen, ← htext, ← hcls]

/-- Stretches up to one to cut behind, and a text behind them, which ends no comment where no comment ends. -/
theorem lexemes_upTo {x zs : List Lexeme} {l : Lexeme} {y : List Char}
    (h : lexemes (texts (x ++ l :: zs)) = x ++ l :: zs) (hx : ∀ k ∈ x, k.cls.isSound) (hl : l.cls.isJoint)
    (hline : l.cls = .comment → ¬ EndsLine (texts zs))
    (hy : blockCommentLength? (texts zs) = none → blockCommentLength? y = none) :
    lexemes (texts x ++ (l.text ++ y)) = x ++ lexemes (l.text ++ y) := by
  obtain ⟨⟨c, r, htext, hc, -⟩, hstar⟩ := joint_text (lexemes_suffix h) hl hline
  have hall : lexemes (texts x ++ (l.text ++ texts zs)) = x ++ l :: zs := by
    rwa [← texts_cons, ← texts_append]
  refine lexemes_keepsLine hall hx ?_ fun ho => ?_
  · rw [htext]
    rcases hc with rfl | hc
    · exact .inl fun d hd => (Option.some.inj hd).symm
    · exact .inr ⟨c, _, _, rfl, rfl, hc⟩
  · have hnone := opensComment_rest h ho
    rw [texts_cons] at hnone
    have hl := blockCommentLength?_of_append hnone
    exact blockCommentLength?_join hl (hy (blockCommentLength?_suffix _ hnone)) (hstar hl)

/-- A stretch to cut behind and a text that is cut alone, which may go on with blanks. -/
theorem lexemes_push {s y : List Char} {l : Lexeme} {zs : List Lexeme} (h : lexemes s = l :: zs) (hl : l.cls.isJoint)
    (hline : l.cls = .comment → ¬ EndsLine (texts zs)) : lexemes (l.text ++ y) = push l (lexemes y) := by
  cases hys : lexemes y with
  | nil =>
    have hy : y = [] := by rw [← texts_lexemes y, hys]; rfl
    subst hy
    exact lexemes_joint h hl hline nofun
  | cons m ys =>
    by_cases hblank : l.cls = .blank ∧ m.cls = .blank
    · obtain ⟨lcls, u⟩ := l
      obtain ⟨mcls, v⟩ := m
      obtain ⟨rfl, rfl⟩ := hblank
      have hy : y = v ++ texts ys := by rw [← texts_lexemes y, hys, texts_cons]
      rw [push, if_pos ⟨rfl, rfl⟩, hy]
      refine lexemes_blanks ?_ (blank_text h rfl).1 (hy ▸ hys)
      exact text_ne_nil (s := s) (l := ⟨.blank, u⟩) (by rw [h]; exact List.mem_cons_self)
    · rw [push, if_neg hblank, ← hys]
      refine lexemes_joint h hl hline fun hcls c hc => ?_
      obtain ⟨d, r, n, rfl, hm, -⟩ := lexemes_eq_cons hys
      obtain rfl := Option.some.inj hc
      refine Bool.eq_false_iff.mpr fun hd => hblank ⟨hcls, ?_⟩
      rw [measure_blank hd] at hm
      exact (congrArg Prod.fst hm).symm

/-! ## Taking out -/

/-- Stretches, and what remains of them where some are taken out, each time behind one to cut behind. -/
inductive Thinned : List Lexeme → List Lexeme → Prop
  | refl (a : List Lexeme) : Thinned a a
  | drop {x m a b : List Lexeme} {k : Lexeme} : (∀ l ∈ x.getLast?, l.cls.isJoint) → k.cls ≠ .newline →
      Thinned a b → Thinned (x ++ (k :: m ++ a)) (x ++ b)

theorem Thinned.append_left {a b x : List Lexeme} (hx : ∀ l ∈ x.getLast?, l.cls.isJoint) (h : Thinned a b) :
    Thinned (x ++ a) (x ++ b) := by
  cases h with
  | refl => exact .refl _
  | @drop y m a b k hy hk hab =>
    rw [← List.append_assoc x y b, ← List.append_assoc x]
    refine .drop (fun l hl => ?_) hk hab
    rw [List.getLast?_append] at hl
    cases hlast : y.getLast? with
    | none =>
      rw [hlast] at hl
      exact hx l hl
    | some z =>
      rw [hlast] at hl
      obtain rfl := Option.some.inj hl
      exact hy _ hlast

theorem Thinned.subset {a b : List Lexeme} (h : Thinned a b) : ∀ l ∈ b, l ∈ a := by
  induction h with
  | refl a => exact fun _ => id
  | drop _ _ _ ih =>
    intro l hl
    rcases List.mem_append.mp hl with hl | hl
    · exact List.mem_append_left _ hl
    · exact List.mem_append_right _ (List.mem_append_right _ (ih l hl))

theorem Thinned.append_right {a b : List Lexeme} (h : Thinned a b) (c : List Lexeme) : Thinned (a ++ c) (b ++ c) := by
  induction h with
  | refl a => exact .refl _
  | @drop x m a b k hx hk _ ih =>
    rw [List.append_assoc, List.append_assoc, List.append_assoc]
    exact .drop hx hk ih

/-- The stretches of what remains, and that no comment is begun or ended by taking out. -/
theorem lexemes_thinned {a b : List Lexeme} (h : Thinned a b) (ha : lexemes (texts a) = a)
    (hsound : ∀ l ∈ a, l.cls.isSound) : lexemes (texts b) = fuse b ∧
      (blockCommentLength? (texts a) = none → blockCommentLength? (texts b) = none) ∧
      (opensComment (fuse b) → opensComment a) := by
  induction h with
  | refl a =>
    have hfuse := (apart_of_lexemes ha).fuse_eq
    exact ⟨ha.trans hfuse.symm, id, by rw [hfuse]; exact id⟩
  | @drop x m a b k hx hk hab ih =>
    have hrest : lexemes (texts a) = a := lexemes_suffix (a := x ++ (k :: m)) (by rw [ha]; simp)
    obtain ⟨hb, hcomment, hopen⟩ := ih hrest fun l hl => hsound l (by simp [hl])
    have hbehind : blockCommentLength? (texts (k :: m ++ a)) = none → blockCommentLength? (texts b) = none := by
      intro hnone
      rw [texts_append] at hnone
      exact hcomment (blockCommentLength?_suffix _ hnone)
    rcases List.eq_nil_or_concat x with rfl | ⟨x, l, rfl⟩
    · exact ⟨hb, hbehind, fun ho => opensComment_suffix (k :: m) (hopen ho)⟩
    · rw [List.concat_eq_append] at *
      have hl : l.cls.isJoint := hx l (by simp)
      have hall : lexemes (texts (x ++ l :: (k :: m ++ a))) = x ++ l :: (k :: m ++ a) := by simpa using ha
      have hsuffix := lexemes_suffix hall
      have hline : l.cls = .comment → ¬ EndsLine (texts (k :: m ++ a)) := fun _ =>
        not_endsLine (a := x ++ [l]) (b := m ++ a) (by rw [hall]; simp) hk
      have hpush := lexemes_push (y := texts b) hsuffix hl hline
      have hapart : Apart (x ++ [l]) := Apart.part (a := []) (c := k :: m ++ a) (by
        have := apart_of_lexemes hall
        simpa using this)
      have hfuse : fuse (x ++ [l] ++ b) = x ++ push l (fuse b) := by
        rw [List.append_assoc, List.singleton_append, hapart.fuse_append, fuse_cons]
      obtain ⟨⟨c, r, htext, hc, hslash⟩, hstar⟩ := joint_text hsuffix hl hline
      refine ⟨?_, fun hnone => ?_, fun ho => ?_⟩
      · rw [hfuse, ← hb, ← hpush, texts_append, texts_append, texts_cons, texts_nil, List.append_nil, List.append_assoc]
        exact lexemes_upTo hall (fun k hk => hsound k (by simp [hk])) hl hline hbehind
      · have hsplit : texts (x ++ [l] ++ (k :: m ++ a)) = texts x ++ (l.text ++ texts (k :: m ++ a)) := by simp
        rw [hsplit] at hnone
        have hlnone := blockCommentLength?_of_append (blockCommentLength?_suffix _ hnone)
        rw [← List.append_assoc] at hnone
        have hnil : l.text ≠ [] := htext ▸ List.cons_ne_nil c r
        rw [texts_append, texts_append, texts_cons, texts_nil, List.append_nil]
        refine blockCommentLength?_join (blockCommentLength?_of_append hnone)
          (hbehind (blockCommentLength?_suffix _ hnone)) ?_
        rw [List.getLast?_append, Option.or_of_isSome (by simpa using hnil)]
        exact hstar hlnone
      · rw [hfuse] at ho
        have hstar : c ≠ '*' := by
          rintro rfl
          rcases hc with hc | hc <;> revert hc <;> decide
        have hne : ∀ k ∈ x, k.text ≠ [] := fun k hk => text_ne_nil (by rw [hall]; simp [hk])
        have hrest : ∀ s, opensComment s → (s = fuse b ∨ ∃ n, fuse b = n :: s) →
            opensComment (x ++ [l] ++ (k :: m ++ a)) := by
          rintro s hs (rfl | ⟨n, hn⟩)
          · exact opensComment_suffix _ (opensComment_suffix _ (hopen hs))
          · exact opensComment_suffix _ (opensComment_suffix _ (hopen (by rw [hn, opensComment, hs, Bool.or_true])))
        obtain ⟨n, s, hpushed, hcls, hcase⟩ := exists_push l (fuse b)
        rw [hpushed] at ho
        have htextn : ∃ r', n.text = c :: r' := by
          rcases hcase with ⟨rfl, -⟩ | ⟨n', -, -, -, hn⟩
          · exact ⟨r, htext⟩
          · exact ⟨r ++ n'.text, by rw [hn, htext, List.cons_append]⟩
        obtain ⟨r', htextn⟩ := htextn
        rcases opensComment_split htextn hstar (hcls ▸ hslash) hne ho with ho | ho
        · rw [List.append_assoc]
          exact opensComment_append _ ho
        · refine hrest s ho (hcase.imp And.right ?_)
          rintro ⟨n', hn', -⟩
          exact ⟨n', hn'⟩

end GoSplice.Syntax
