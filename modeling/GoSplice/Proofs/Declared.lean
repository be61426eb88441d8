import GoSplice.Package.Members
import GoSplice.Proofs.Excerpts
import GoSplice.Proofs.Ranges

/-!
# What a declaration declares, anywhere

What a declaration declares is read off its own text and the comments inside it,
so it is the same wherever the text stands, but for the offsets of import specs:

    declaredBy (a ++ b ++ c) comments (t.moved a.length) =
      declaredBy b (those of b) t, moved            (declaredBy_moved)
-/

namespace GoSplice

open Syntax

def ImportSpec.moved (n : Nat) (s : ImportSpec) : ImportSpec :=
  { s with start := s.start + n, stop := s.stop + n }

/-- What a declaration further on in its file declares. -/
def Declared.moved (n : Nat) : Declared → Declared
  | .imports specs close => .imports (specs.map (ImportSpec.moved n)) (close.map (· + n))
  | d => d

theorem isDeclaredBy_moved (n : Nat) (s : Subject) (d : Declared) :
    s.isDeclaredBy (d.moved n) = s.isDeclaredBy d := by
  cases s <;> cases d <;> rfl

/-- An excerpt of an excerpt. -/
theorem slice_moved (a b c : Bytes) {start stop : Nat} (h : stop ≤ b.length) :
    slice (a ++ b ++ c) (start + a.length) (stop + a.length) = slice b start stop := by
  unfold slice
  rw [List.append_assoc, Nat.add_comm stop, List.take_length_add_append,
    List.take_append_of_le_length h, Nat.add_comm start, List.drop_length_add_append]

namespace Declaration

section Moved

variable {a b c : Bytes} {t : Node}

theorem nodeText_moved (h : t.stop ≤ b.length) :
    nodeText (a ++ b ++ c) (t.moved a.length) = nodeText b t := by
  unfold nodeText
  rw [Tree.start_moved, Tree.stop_moved, slice_moved a b c h]

theorem filter_moved (p : Label → Bool) (n : Nat) (ts : List Node) :
    (ts.map (Tree.moved n)).filter (fun t => p t.label) =
      (ts.filter fun t => p t.label).map (Tree.moved n) := by
  rw [List.filter_map]
  congr 1
  exact List.filter_congr fun t _ => by simp

theorem withLabel_moved (l : Label) (n : Nat) (t : Node) :
    withLabel l (t.moved n) = (withLabel l t).map (Tree.moved n) := by
  unfold withLabel
  rw [Tree.children_moved]
  exact filter_moved (· == l) n t.children

theorem mem_withLabel {l : Label} {u : Node} (h : u ∈ withLabel l t) : u ∈ t.children :=
  (List.mem_filter.mp h).1

theorem childTexts_moved (ls : List Label) (h : ∀ u ∈ t.children, u.stop ≤ b.length) :
    childTexts (a ++ b ++ c) ls (t.moved a.length) = childTexts b ls t := by
  unfold childTexts
  rw [Tree.children_moved, filter_moved (ls.contains ·), List.map_map]
  exact List.map_congr_left fun u hu => nodeText_moved (h u (List.mem_filter.mp hu).1)

theorem childText_moved (l : Label) (h : ∀ u ∈ t.children, u.stop ≤ b.length) :
    childText (a ++ b ++ c) l (t.moved a.length) = childText b l t := by
  unfold childText
  rw [childTexts_moved [l] h]

end Moved

/-- Whether a node and its parts lie in the first bytes of a text. -/
def Within (size : Nat) (t : Node) : Prop := ∃ lo hi, hi ≤ size ∧ t.NestedIn (fun _ => True) lo hi

theorem Within.stop_le {size : Nat} {t : Node} (h : Within size t) : t.stop ≤ size := by
  obtain ⟨lo, hi, hle, hn⟩ := h
  exact Nat.le_trans hn.range.2.2.1 hle

theorem Within.child {size : Nat} {t u : Node} (h : Within size t) (hu : u ∈ t.children) :
    Within size u := by
  have hstop := h.stop_le
  obtain ⟨lo, hi, hle, hn⟩ := h
  exact ⟨t.start, t.stop, hstop, hn.range.2.2.2.2.2.of_mem hu⟩

/-- Whether comments of a file lie in an excerpt as those of the excerpt do. -/
def SameInside (n size : Nat) (comments inner : List Comment) : Prop :=
  ∀ start stop, stop ≤ size → comments.any (fun c => start + n ≤ c.start && c.start < stop + n) =
    inner.any fun c => start ≤ c.start && c.start < stop

section Declared

variable {a b c : Bytes} {t : Node} {comments inner : List Comment}

theorem receiverOf_moved (ht : Within b.length t)
    (hc : SameInside a.length b.length comments inner) :
    receiverOf (a ++ b ++ c) comments (t.moved a.length) = receiverOf b inner t := by
  have htext : ∀ u, Within b.length u →
      nodeText (a ++ b ++ c) (u.moved a.length) = nodeText b u := fun u hu => nodeText_moved hu.stop_le
  unfold receiverOf
  rw [withLabel_moved]
  cases hps : withLabel .parameter t with
  | nil => simp only [List.map_nil, htext t ht]
  | cons p ps =>
    have hp := ht.child (mem_withLabel (hps ▸ List.mem_cons_self))
    cases ps with
    | cons q qs => simp only [List.map_cons, htext t ht]
    | nil =>
      simp only [List.map_cons, List.map_nil, Tree.children_moved]
      cases hus : p.children with
      | nil => simp only [List.map_nil, htext p hp]
      | cons u us =>
        have hu := hp.child (hus ▸ List.mem_cons_self)
        simp only [List.map_cons, Tree.label_moved, Tree.children_moved, htext u hu, Tree.start_moved,
          Tree.stop_moved, hc u.start u.stop hu.stop_le]
        cases hvs : u.children with
        | nil => cases u.label <;> rfl
        | cons v vs =>
          have hv := hu.child (hvs ▸ List.mem_cons_self)
          cases vs with
          | nil => cases u.label <;> simp only [List.map_cons, List.map_nil, htext v hv]
          | cons w ws => cases u.label <;> rfl

theorem importSpecOf_moved (ht : Within b.length t) :
    importSpecOf (a ++ b ++ c) (t.moved a.length) =
      (importSpecOf b t).map (ImportSpec.moved a.length) := by
  have hstop : ∀ u ∈ t.children, u.stop ≤ b.length := fun u hu => (ht.child hu).stop_le
  unfold importSpecOf
  rw [childText_moved _ hstop, childText_moved _ hstop, Tree.start_moved, Tree.stop_moved]
  cases ImportPath.ofLiteral? (childText b .importPath t).toList <;> rfl

theorem importSpecs_moved {ts : List Node} (hts : ∀ t ∈ ts, Within b.length t) :
    (ts.map (Tree.moved a.length)).mapM (importSpecOf (a ++ b ++ c)) =
      (ts.mapM (importSpecOf b)).map (List.map (ImportSpec.moved a.length)) := by
  induction ts with
  | nil => rfl
  | cons t ts ih =>
    rw [List.map_cons, List.mapM_cons, List.mapM_cons, importSpecOf_moved (hts t List.mem_cons_self),
      ih fun u hu => hts u (List.mem_cons_of_mem t hu)]
    cases importSpecOf b t with
    | error e => rfl
    | ok x => cases ts.mapM (importSpecOf b) <;> rfl

theorem statementKind_moved (n : Nat) (t : Node) : statementKind (t.moved n) = statementKind t := by
  have hhead : (t.children.map (Tree.moved n)).head?.map Tree.label =
      t.children.head?.map Tree.label := by
    rw [List.head?_map, Option.map_map]
    exact congrArg (Option.map · _) (funext fun u => Tree.label_moved n u)
  unfold statementKind
  rw [Tree.label_moved, Tree.children_moved, hhead]

/-- A declaration declares the same anywhere. -/
theorem declaredBy_moved (ht : Within b.length t)
    (hc : SameInside a.length b.length comments inner) :
    declaredBy (a ++ b ++ c) comments (t.moved a.length) =
      (declaredBy b inner t).map (Declared.moved a.length) := by
  have hstop : ∀ u ∈ t.children, u.stop ≤ b.length := fun u hu => (ht.child hu).stop_le
  have hspecs : ∀ (ls : List Label) (l : Label),
      (withLabel l (t.moved a.length)).flatMap (childTexts (a ++ b ++ c) ls) =
        (withLabel l t).flatMap (childTexts b ls) := by
    intro ls l
    rw [withLabel_moved, List.flatMap_map, List.flatMap_def, List.flatMap_def]
    refine congrArg List.flatten (List.map_congr_left fun u hu => childTexts_moved ls fun v hv => ?_)
    exact ((ht.child (mem_withLabel hu)).child hv).stop_le
  have hname := childText_moved (a := a) (c := c) .name hstop
  unfold declaredBy
  rw [Tree.label_moved]
  cases t.label
  case function => simp only [hname]; rfl
  case method =>
    simp only [hname, withLabel_moved]
    cases hr : withLabel .receiver t with
    | nil => rfl
    | cons u us =>
      simp only [List.map_cons, receiverOf_moved (ht.child (mem_withLabel (hr ▸ List.mem_cons_self))) hc]
      rfl
  case constDecl | varDecl => simp only [hspecs]; rfl
  case typeDecl =>
    have hnames : (withLabel .spec (t.moved a.length)).map (childText (a ++ b ++ c) .name) =
        (withLabel .spec t).map (childText b .name) := by
      rw [withLabel_moved, List.map_map]
      exact List.map_congr_left fun u hu =>
        childText_moved _ fun v hv => ((ht.child (mem_withLabel hu)).child hv).stop_le
    simp only [hnames]
    rfl
  case importDecl =>
    simp only [withLabel_moved, importSpecs_moved fun u hu => ht.child (mem_withLabel hu)]
    have hclose : (((withLabel .closeParen t).map (Tree.moved a.length)).head?.map fun u : Node => u.start) =
        ((withLabel .closeParen t).head?.map fun u : Node => u.start).map (· + a.length) := by
      cases withLabel .closeParen t with
      | nil => rfl
      | cons u us => exact congrArg some (Tree.start_moved _ u)
    rw [hclose]
    cases (withLabel .importSpec t).mapM (importSpecOf b) <;> rfl
  all_goals
    simp only [statementKind_moved]
    rfl

end Declared

end Declaration

end GoSplice
