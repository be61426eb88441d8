import GoSplice.Proofs.Lexemes
import GoSplice.Proofs.Utf8

/-!
# The places of tokens and comments

`scan` lays the tokens and the comments of a text where their stretches lie:

    comments of place pos brk ls = comments of located pos ls      (place_comments)
    tokens of place pos brk ls   = tokens of located pos ls        (place_tokens)
    place pos brk (a ++ b)       = place … a, then place … b       (place_append)
-/

namespace GoSplice.Syntax

/-! ## Widths -/

@[simp] theorem byteWidth_nil : byteWidth [] = 0 := rfl

theorem byteWidth_cons (c : Char) (s : List Char) : byteWidth (c :: s) = c.utf8Size + byteWidth s :=
  rfl

theorem byteWidth_eq (s : List Char) : byteWidth s = (Utf8.encode s).length := by
  induction s with
  | nil => rfl
  | cons c s ih =>
    rw [Utf8.encode_cons, List.length_append, ← ih, String.length_utf8EncodeChar, byteWidth_cons]

@[simp] theorem byteWidth_append (s t : List Char) :
    byteWidth (s ++ t) = byteWidth s + byteWidth t := by
  induction s with
  | nil => exact (Nat.zero_add _).symm
  | cons c s ih => rw [List.cons_append, byteWidth_cons, byteWidth_cons, ih, Nat.add_assoc]

theorem byteWidth_pos {s : List Char} (h : s ≠ []) : 0 < byteWidth s := by
  cases s with
  | nil => exact absurd rfl h
  | cons c s =>
    have := c.utf8Size_pos
    rw [byteWidth_cons]
    omega

/-- Of two ways to split stretches, the first part of one goes on as far as it is wider. -/
theorem prefix_of_width_le {a b c d : List Lexeme} (h : a ++ b = c ++ d) (hne : ∀ l ∈ a ++ b, l.text ≠ [])
    (hle : byteWidth (texts a) ≤ byteWidth (texts c)) : ∃ m, c = a ++ m ∧ b = m ++ d := by
  rcases List.append_eq_append_iff.mp h with ⟨m, rfl, rfl⟩ | ⟨m, rfl, rfl⟩
  · exact ⟨m, rfl, rfl⟩
  · cases m with
    | nil => exact ⟨[], by simp, rfl⟩
    | cons l m =>
      have := byteWidth_pos (hne l (by simp))
      simp only [texts_append, texts_cons, byteWidth_append] at hle
      omega

theorem append_inj_width {a b c d : List Lexeme} (h : a ++ b = c ++ d) (hne : ∀ l ∈ a ++ b, l.text ≠ [])
    (hwidth : byteWidth (texts a) = byteWidth (texts c)) : a = c ∧ b = d := by
  obtain ⟨m, rfl, rfl⟩ := prefix_of_width_le h hne (Nat.le_of_eq hwidth)
  cases m with
  | nil => exact ⟨(List.append_nil a).symm, rfl⟩
  | cons l m =>
    have := byteWidth_pos (hne l (by simp))
    simp only [texts_append, texts_cons, byteWidth_append] at hwidth
    omega

/-! ## Stretches with their places -/

/-- Stretches with the offsets at which they begin. -/
def located (pos : Nat) : List Lexeme → List (Nat × Lexeme)
  | [] => []
  | l :: r => (pos, l) :: located (pos + byteWidth l.text) r

theorem mem_located {pos p : Nat} {ls : List Lexeme} {l : Lexeme} :
    (p, l) ∈ located pos ls ↔ ∃ a b, ls = a ++ l :: b ∧ p = pos + byteWidth (texts a) := by
  induction ls generalizing pos with
  | nil => simp [located]
  | cons l' r ih =>
    rw [located, List.mem_cons, ih]
    constructor
    · rintro (h | ⟨a, b, rfl, rfl⟩)
      · rw [Prod.mk.injEq] at h
        obtain ⟨rfl, rfl⟩ := h
        exact ⟨[], r, rfl, rfl⟩
      · exact ⟨l' :: a, b, rfl, by simp; omega⟩
    · rintro ⟨a, b, hab, rfl⟩
      cases a with
      | nil =>
        rw [List.nil_append, List.cons.injEq] at hab
        obtain ⟨rfl, rfl⟩ := hab
        exact Or.inl rfl
      | cons x a =>
        rw [List.cons_append, List.cons.injEq] at hab
        obtain ⟨rfl, rfl⟩ := hab
        exact Or.inr ⟨a, b, rfl, by simp; omega⟩

theorem le_of_mem_located {pos : Nat} {ls : List Lexeme} {x : Nat × Lexeme}
    (h : x ∈ located pos ls) : pos ≤ x.1 := by
  obtain ⟨p, l⟩ := x
  obtain ⟨a, b, -, rfl⟩ := mem_located.mp h
  exact Nat.le_add_right _ _

/-- A stretch ends before the next one begins. -/
theorem located_pairwise (pos : Nat) (ls : List Lexeme) :
    (located pos ls).Pairwise fun x y => x.1 + byteWidth x.2.text ≤ y.1 := by
  induction ls generalizing pos with
  | nil => exact .nil
  | cons l r ih =>
    rw [located]
    exact .cons (fun y hy => le_of_mem_located hy) (ih _)

/-- Two stretches are the same, or one lies before the other. -/
theorem located_trichotomy {pos : Nat} {ls : List Lexeme} {x y : Nat × Lexeme}
    (hx : x ∈ located pos ls) (hy : y ∈ located pos ls) :
    x = y ∨ x.1 + byteWidth x.2.text ≤ y.1 ∨ y.1 + byteWidth y.2.text ≤ x.1 := by
  have h := located_pairwise pos ls
  obtain ⟨i, hi, rfl⟩ := List.mem_iff_getElem.mp hx
  obtain ⟨j, hj, rfl⟩ := List.mem_iff_getElem.mp hy
  rw [List.pairwise_iff_getElem] at h
  rcases Nat.lt_trichotomy i j with hij | rfl | hij
  · exact Or.inr (Or.inl (h i j hi hj hij))
  · exact Or.inl rfl
  · exact Or.inr (Or.inr (h j i hj hi hij))

/-! ## Tokens and comments of placed stretches -/

/-- A token without what stands before it. -/
def Token.core (t : Token) : Token := { t with lineBreak := none }

def commentOf? (x : Nat × Lexeme) : Option Comment :=
  if x.2.cls = .comment then some ⟨x.1, x.1 + byteWidth x.2.text⟩ else none

def tokenOf? (x : Nat × Lexeme) : Option Token :=
  match x.2.cls with
  | .token k => some ⟨k, x.1, x.1 + byteWidth x.2.text, none⟩
  | _ => none

theorem place_comments (pos : Nat) (brk : Option Nat) (ls : List Lexeme) :
    (place pos brk ls).comments = (located pos ls).filterMap commentOf? := by
  induction ls generalizing pos brk with
  | nil => rfl
  | cons l r ih =>
    rw [place, located]
    cases hc : l.cls <;> simp [commentOf?, hc, ih]

theorem place_tokens (pos : Nat) (brk : Option Nat) (ls : List Lexeme) :
    (place pos brk ls).tokens.map Token.core = (located pos ls).filterMap tokenOf? := by
  induction ls generalizing pos brk with
  | nil => rfl
  | cons l r ih =>
    rw [place, located]
    cases hc : l.cls <;> simp [tokenOf?, hc, ih, Token.core]

/-- Tokens and comments can be placed part by part; a line end goes along. -/
theorem place_append (pos : Nat) (brk : Option Nat) (a b : List Lexeme) :
    place pos brk (a ++ b) =
      let first := place pos brk a
      let second := place (pos + byteWidth (texts a)) first.lastBreak b
      ⟨first.tokens ++ second.tokens, first.comments ++ second.comments, second.lastBreak⟩ := by
  induction a generalizing pos brk with
  | nil => simp [place]
  | cons l a ih =>
    rw [List.cons_append, place, place]
    cases hc : l.cls <;> simp only [ih, texts_cons, byteWidth_append, ← Nat.add_assoc] <;> rfl

theorem place_comments_append (pos : Nat) (brk : Option Nat) (xs ys : List Lexeme) :
    (place pos brk (xs ++ ys)).comments = (place pos none xs).comments ++
      (place (pos + byteWidth (texts xs)) none ys).comments := by
  have hany : ∀ pos brk (ls : List Lexeme), (place pos brk ls).comments = (place pos none ls).comments :=
    fun pos brk ls => by rw [place_comments, place_comments]
  rw [place_append, ← hany pos brk xs, ← hany _ (place pos brk xs).lastBreak ys]

/-! ## The whole text -/

/-- The byte order mark that a text begins with. -/
def orderMark : List Char → List Char
  | [] => []
  | c :: _ => if c = byteOrderMark then [c] else []

theorem orderMark_append_drop (s : List Char) : orderMark s ++ s.drop (orderMark s).length = s := by
  cases s with
  | nil => rfl
  | cons c r => by_cases h : c = byteOrderMark <;> simp [orderMark, h]

theorem scan_eq (s : List Char) :
    scan s = place (byteWidth (orderMark s)) none (lexemes (s.drop (orderMark s).length)) := by
  cases s with
  | nil => rfl
  | cons c r => by_cases h : c = byteOrderMark <;> simp [scan, orderMark, h, byteWidth]

end GoSplice.Syntax
