import GoSplice.Proofs.ErrorPlaces
import GoSplice.Proofs.Repetitions

/-!
# Strict and lenient readings

A strict reading refuses items by their labels, and a lenient one makes declarations of them by
their labels.  The two agree on what is a statement, so a strict reading is a lenient one that
finds none, and fails at the first one that the lenient reading finds:

    declaredBy t = ok d → d is a statement ↔ t is no declaration                   (isStatement_of_declaredBy)
    first statement among declarations = first item that is no declaration          (find?_statement)
    parse strict = ok f ↔ parse lenient = ok f, and f has no statement              (parse_strict)
-/

namespace GoSplice

open Syntax

/-- Whether an item is declared to be nothing but a statement. -/
def Declared.isStatement : Declared → Bool
  | .other _ => true
  | _ => false

namespace Declaration

variable {source : Bytes} {comments : List Comment} {lines : LineIndex}

/-- What is made of an item tells whether it is a declaration. -/
theorem isStatement_of_declaredBy {t : Node} {d : Declared} (hclause : t.label ≠ .packageClause)
    (h : declaredBy source comments t = .ok d) : d.isStatement = !Fault.isDeclaration t := by
  unfold Fault.isDeclaration
  unfold declaredBy at h
  split at h
  case h_6 hl =>
    cases hspecs : (withLabel .importSpec t).mapM (importSpecOf source) with
    | error e =>
      rw [hspecs] at h
      cases h
    | ok specs =>
      rw [hspecs] at h
      cases h
      rw [hl]
      rfl
  case h_7 h1 h2 h3 h4 h5 h6 =>
    cases h
    cases hl : t.label <;> first | rfl | contradiction
  all_goals
    next hl =>
      cases h
      rw [hl]
      rfl

/-- The first statement of a file is the first item that is no declaration. -/
theorem find?_statement {ns : List Node} {ds : List Declaration} (h : ofNodes source lines ns comments = .ok ds) :
    (ds.find? (·.declared.isStatement)).map (fun d => (d.start, d.stop)) =
      (ns.find? (!Fault.isDeclaration ·)).map fun t => (t.start, t.stop) := by
  have hitems := forall₂_ofSiblings h
  rw [filterMap_siblings] at hitems
  have hclauses : ns.find? (!Fault.isDeclaration ·) =
      (ns.filter (·.label != .packageClause)).find? (!Fault.isDeclaration ·) := by
    rw [List.find?_filter]
    congr 1
    funext t
    rw [Bool.eq_iff_iff, decide_eq_true_eq, iff_and_self, bne_iff_ne]
    intro ht hclause
    rw [Fault.isDeclaration, hclause] at ht
    cases ht
  have hlabels : ∀ t ∈ ns.filter (·.label != .packageClause), t.label ≠ .packageClause := fun t ht =>
    bne_iff_ne.mp (List.mem_filter.mp ht).2
  rw [hclauses]
  clear h hclauses
  generalize ns.filter (·.label != .packageClause) = items at hitems hlabels
  induction hitems with
  | nil => rfl
  | @cons t d items ds ht _ ih =>
    obtain ⟨hstart, hstop, hdeclared⟩ := ht
    obtain ⟨hlabel, hlabels⟩ := List.forall_mem_cons.mp hlabels
    rw [List.find?_cons, List.find?_cons, isStatement_of_declaredBy hlabel hdeclared]
    cases Fault.isDeclaration t with
    | true => exact ih hlabels
    | false => exact congrArg some (Prod.ext hstart hstop)

end Declaration

variable {filename : String} {source : Bytes} {f : SourceFile} {s : List Char}

/-- Where a strict reading of a file fails that a lenient one reads: at a statement of it. -/
def SourceFile.statementError (f : SourceFile) (d : Declaration) : PatchError :=
  .sourceSyntax (.ofOffset f.filename f.lines d.start (.statement (SourceFile.shownToken f.source d.start d.stop)))

theorem Parsed.strict_iff :
    Parsed filename source true f s ↔
      Parsed filename source false f s ∧ f.declarations.find? (·.declared.isStatement) = none := by
  have hiff : ∀ h : Parsed filename source false f s, f.declarations.find? (·.declared.isStatement) = none ↔
      ∀ t ∈ (textItems s).nodes, Fault.isDeclaration t := by
    intro h
    rw [← Option.map_eq_none_iff, Declaration.find?_statement h.declarations, Option.map_eq_none_iff]
    simp
  constructor
  · intro h
    have hlenient : Parsed filename source false f s := { h with isDeclaration := nofun }
    exact ⟨hlenient, (hiff hlenient).mpr (h.isDeclaration rfl)⟩
  · rintro ⟨h, hnone⟩
    exact { h with isDeclaration := fun _ => (hiff h).mp hnone }

/-- A strict reading fails at the first statement that a lenient one finds. -/
theorem Parsed.strict_of_find? (h : Parsed filename source false f s) {d : Declaration}
    (hd : f.declarations.find? (·.declared.isStatement) = some d) :
    SourceFile.parse filename source true = .error (f.statementError d) := by
  obtain ⟨clause, hclause, -, -⟩ := h.clause
  obtain ⟨t, ht, hrange⟩ : ∃ t, (textItems s).nodes.find? (!Fault.isDeclaration ·) = some t ∧
      (t.start, t.stop) = (d.start, d.stop) := by
    have hfirst := Declaration.find?_statement h.declarations
    rw [hd] at hfirst
    exact Option.map_eq_some_iff.mp hfirst.symm
  obtain ⟨hstart, hstop⟩ := Prod.mk.inj hrange
  have hdecode : Utf8.decode? source = some s := by
    rw [h.encode_eq, Utf8.decode?_encode]
  unfold SourceFile.parse SourceFile.statementError
  rw [hdecode]
  dsimp only
  rw [← textItems_def]
  simp only [h.refusal, hclause, ht, if_true, hstart, hstop, h.filename_eq, h.source_eq, h.lines_eq]

namespace SourceFile

/-- A strict reading of a file and a lenient one: the strict one reads what the lenient one reads,
unless that holds a statement, and fails at the first one then.  Where the lenient one meets an
error of syntax, the strict one meets the same. -/
theorem parse_strict (filename : String) (source : Bytes) :
    (∀ f, parse filename source true = .ok f ↔
      parse filename source false = .ok f ∧ ∀ d ∈ f.declarations, ¬ d.declared.isStatement) ∧
    (∀ f g, parse filename source true = .ok f → parse filename source false = .ok g → f = g) ∧
    (∀ f e, parse filename source false = .ok f → parse filename source true = .error e →
      ∃ d, f.declarations.find? (·.declared.isStatement) = some d ∧ e = f.statementError d) ∧
    ∀ e, parse filename source false = .error (.sourceSyntax e) →
      parse filename source true = .error (.sourceSyntax e) := by
  have hok : ∀ f, parse filename source true = .ok f ↔
      parse filename source false = .ok f ∧ ∀ d ∈ f.declarations, ¬ d.declared.isStatement := by
    intro f
    rw [← List.find?_eq_none, parse_eq_ok_iff, parse_eq_ok_iff, ← exists_and_right]
    exact exists_congr fun s => Parsed.strict_iff
  refine ⟨hok, fun f g hstrict hlenient => ?_, fun f e hlenient hstrict => ?_, fun e h => ?_⟩
  · rw [((hok f).mp hstrict).1] at hlenient
    exact Except.ok.inj hlenient
  · obtain ⟨s, hs⟩ := parse_eq_ok_iff.mp hlenient
    cases hd : f.declarations.find? (·.declared.isStatement) with
    | none =>
      rw [(hok f).mpr ⟨hlenient, List.find?_eq_none.mp hd⟩] at hstrict
      cases hstrict
    | some d =>
      rw [hs.strict_of_find? hd] at hstrict
      exact ⟨d, rfl, (Except.error.inj hstrict).symm⟩
  · unfold parse at h ⊢
    dsimp only at h ⊢
    split at h
    · exact h
    split at h
    · exact h
    split at h
    · exact h
    -- what is left to fail is an import literal, which is no error of syntax
    exfalso
    rw [if_neg Bool.false_ne_true] at h
    generalize hdeclarations : Declaration.ofNodes _ _ _ _ = r at h
    cases r with
    | ok declarations => cases h
    | error e' =>
      obtain rfl := Except.error.inj h
      exact ofNodes_ne_sourceSyntax hdeclarations

end SourceFile

end GoSplice
