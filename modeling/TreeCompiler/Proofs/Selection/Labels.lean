import TreeCompiler.Proofs.Selection.Marks
import TreeCompiler.Proofs.Trees

/-!
# Labels — the labels of selected operations

Selection makes up no labels: the marks of a tree have only labels that occur in it
(`Stm.labels_marks`).  So the operations of a tree mention only labels of the tree, and each jump
has a label to go to (`MarkedAll.within`).
-/

namespace TreeCompiler

/-! ## Labels of trees -/

mutual

/-- The labels that occur in an expression. -/
def Exp.labels : Exp → List Label
  | .binop _ l r => l.labels ++ r.labels
  | .mem a => a.labels
  | .temp _ => []
  | .eseq s e => s.labels ++ e.labels
  | .name l => [l]
  | .const _ => []
  | .call f args => f.labels ++ Exp.labelsAll args

def Exp.labelsAll : List Exp → List Label
  | [] => []
  | e :: es => e.labels ++ Exp.labelsAll es

/-- The labels that occur in a statement. -/
def Stm.labels : Stm → List Label
  | .seq a b => a.labels ++ b.labels
  | .label l => [l]
  | .jump e ls => e.labels ++ ls
  | .cjump _ l r t f => l.labels ++ r.labels ++ [t, f]
  | .move d s => d.labels ++ s.labels
  | .exp e => e.labels

end

mutual

/-- The labels that an expression defines, in order. -/
def Exp.definedLabels : Exp → List Label
  | .binop _ l r => l.definedLabels ++ r.definedLabels
  | .mem a => a.definedLabels
  | .temp _ => []
  | .eseq s e => s.definedLabels ++ e.definedLabels
  | .name _ => []
  | .const _ => []
  | .call f args => f.definedLabels ++ Exp.definedLabelsAll args

def Exp.definedLabelsAll : List Exp → List Label
  | [] => []
  | e :: es => e.definedLabels ++ Exp.definedLabelsAll es

/-- The labels that a statement defines, in order. -/
def Stm.definedLabels : Stm → List Label
  | .seq a b => a.definedLabels ++ b.definedLabels
  | .label l => [l]
  | .jump e _ => e.definedLabels
  | .cjump _ l r _ _ => l.definedLabels ++ r.definedLabels
  | .move d s => d.definedLabels ++ s.definedLabels
  | .exp e => e.definedLabels

end

namespace Selection

variable {target : Target} {ls : List Label}

/-! ## Labels in marks -/

theorem labels_passingMarks (target : Target) (count : Nat) :
    (passingMarks target count).flatMap Mark.labels = [] := by
  simp [passingMarks, List.flatMap_map, Mark.labels]

theorem labels_callMarks {f : Exp} {function arguments : List Mark} {count : Nat}
    {as bs : List Label} (hname : f.labels ⊆ as) (hf : function.flatMap Mark.labels ⊆ as)
    (hargs : arguments.flatMap Mark.labels ⊆ bs) :
    (callMarks target f function arguments count).flatMap Mark.labels ⊆ as ++ bs := by
  unfold callMarks
  split
  · rw [List.flatMap_append, List.flatMap_append, labels_passingMarks, List.nil_append]
    exact List.append_subset.2 ⟨List.subset_append_of_subset_right _ hargs,
      List.subset_append_of_subset_left _ hname⟩
  · rw [List.flatMap_append, List.flatMap_append, labels_passingMarks, List.append_nil]
    exact append_subset_append hf hargs

theorem labels_jumpMarks {e : Exp} {address : List Mark} {labels : List Label}
    (hname : e.labels ⊆ ls) (haddress : address.flatMap Mark.labels ⊆ ls) :
    (jumpMarks e address labels).flatMap Mark.labels ⊆ ls ++ labels := by
  unfold jumpMarks
  split
  · rename_i l
    rw [List.flatMap_singleton]
    change (if labels = [] then [l] else labels) ⊆ ls ++ labels
    split
    · exact List.subset_append_of_subset_left _ hname
    · exact List.subset_append_right ls labels
  · rw [List.flatMap_append, List.flatMap_singleton]
    exact append_subset_append haddress (List.Subset.refl _)

theorem label?_callMarks (f : Exp) (function arguments : List Mark) (count : Nat)
    (hname : ∀ l, f = .name l → function = [.mention [l]]) :
    (callMarks target f function arguments count).filterMap Mark.label? =
      function.filterMap Mark.label? ++ arguments.filterMap Mark.label? := by
  have hpassing : (passingMarks target count).filterMap Mark.label? = [] := by
    simp [passingMarks, List.filterMap_map, Mark.label?]
  unfold callMarks
  split
  · rw [hname _ rfl, List.filterMap_append, List.filterMap_append, hpassing]
    exact List.append_nil _
  · rw [List.filterMap_append, List.filterMap_append, hpassing, List.append_nil]

theorem label?_jumpMarks (e : Exp) (address : List Mark) (labels : List Label)
    (hname : ∀ l, e = .name l → address = [.mention [l]]) :
    (jumpMarks e address labels).filterMap Mark.label? = address.filterMap Mark.label? := by
  unfold jumpMarks
  split
  · rw [hname _ rfl]
    rfl
  · rw [List.filterMap_append]
    exact List.append_nil _

end Selection

open Selection

section Trees

variable {target : Target}

mutual

/-- The marks of an expression have the labels that it defines. -/
theorem Exp.label?_marks :
    ∀ e : Exp, (e.marks target).filterMap Mark.label? = e.definedLabels
  | .binop _ l r => by
      rw [Exp.marks, List.filterMap_append, l.label?_marks, r.label?_marks, Exp.definedLabels]
  | .mem a => a.label?_marks
  | .temp _ => rfl
  | .eseq s e => by
      rw [Exp.marks, List.filterMap_append, s.label?_marks, e.label?_marks, Exp.definedLabels]
  | .name _ => rfl
  | .const _ => rfl
  | .call f args => by
      rw [Exp.marks, label?_callMarks f _ _ _ (by rintro l rfl; rfl), f.label?_marks,
        Exp.label?_marksAll args, Exp.definedLabels]

theorem Exp.label?_marksAll :
    ∀ es : List Exp, (Exp.marksAll target es).filterMap Mark.label? = Exp.definedLabelsAll es
  | [] => rfl
  | e :: es => by
      rw [Exp.marksAll, List.filterMap_append, e.label?_marks, Exp.label?_marksAll es,
        Exp.definedLabelsAll]

theorem Stm.label?_marks :
    ∀ s : Stm, (s.marks target).filterMap Mark.label? = s.definedLabels
  | .seq a b => by
      rw [Stm.marks, List.filterMap_append, a.label?_marks, b.label?_marks, Stm.definedLabels]
  | .label _ => rfl
  | .jump e labels => by
      rw [Stm.marks, label?_jumpMarks e _ _ (by rintro l rfl; rfl), e.label?_marks,
        Stm.definedLabels]
  | .cjump _ l r t f => by
      have hjump : [Mark.mention [t, f]].filterMap Mark.label? = [] := rfl
      rw [Stm.marks, List.filterMap_append, List.filterMap_append, l.label?_marks, r.label?_marks,
        hjump, List.append_nil, Stm.definedLabels]
  | .move d s => by
      rw [Stm.marks, List.filterMap_append, d.label?_marks, s.label?_marks, Stm.definedLabels]
  | .exp e => e.label?_marks

end

theorem label?_flatMap_marks (body : List Stm) :
    (body.flatMap (Stm.marks target)).filterMap Mark.label? = body.flatMap Stm.definedLabels := by
  rw [List.filterMap_flatMap]
  exact List.flatMap_congr fun s _ => s.label?_marks

mutual

/-- The marks of an expression have only labels that occur in it. -/
theorem Exp.labels_marks : ∀ e : Exp, (e.marks target).flatMap Mark.labels ⊆ e.labels
  | .binop _ l r => List.flatMap_append ▸ append_subset_append l.labels_marks r.labels_marks
  | .mem a => a.labels_marks
  | .temp _ => List.nil_subset _
  | .eseq s e => List.flatMap_append ▸ append_subset_append s.labels_marks e.labels_marks
  | .name _ => List.Subset.refl _
  | .const _ => List.nil_subset _
  | .call f args => labels_callMarks (List.Subset.refl _) f.labels_marks (Exp.labels_marksAll args)

theorem Exp.labels_marksAll :
    ∀ es : List Exp, (Exp.marksAll target es).flatMap Mark.labels ⊆ Exp.labelsAll es
  | [] => List.nil_subset _
  | e :: es => List.flatMap_append ▸ append_subset_append e.labels_marks (Exp.labels_marksAll es)

theorem Stm.labels_marks : ∀ s : Stm, (s.marks target).flatMap Mark.labels ⊆ s.labels
  | .seq a b => List.flatMap_append ▸ append_subset_append a.labels_marks b.labels_marks
  | .label _ => List.Subset.refl _
  | .jump e _ => labels_jumpMarks (List.Subset.refl _) e.labels_marks
  | .cjump _ l r t f => by
      rw [Stm.marks, Stm.labels, ← List.append_assoc, List.flatMap_append, List.flatMap_append]
      exact append_subset_append (append_subset_append l.labels_marks r.labels_marks)
        (List.Subset.refl _)
  | .move d s => List.flatMap_append ▸ append_subset_append d.labels_marks s.labels_marks
  | .exp e => e.labels_marks

end

theorem flatMap_marks_subset (body : List Stm) :
    (body.flatMap (Stm.marks target)).flatMap Mark.labels ⊆ body.flatMap Stm.labels := by
  intro l hl
  rw [List.flatMap_assoc] at hl
  obtain ⟨s, hs, hl⟩ := List.mem_flatMap.1 hl
  exact List.mem_flatMap.2 ⟨s, hs, s.labels_marks hl⟩

end Trees

/-! ## Labels of operations -/

/-- An operation that mentions only some labels, and is no jump to nowhere. -/
structure Operation.Within (ls : List Label) (op : Operation) : Prop where
  labels : op.labels ⊆ ls
  jump : op.isStray = false

namespace Selection

variable {target : Target} {op : Operation} {ops : List Operation} {ms : List Mark}
  {ls : List Label}

theorem Marked.within (h : Marked target op ms) (hls : ms.flatMap Mark.labels ⊆ ls) :
    op.Within ls := by
  cases h with
  | label l => exact ⟨hls, rfl⟩
  | argument v slot => exact ⟨List.nil_subset ls, rfl⟩
  | plain _ hlabels hjump => exact ⟨hlabels ▸ List.nil_subset ls, hjump⟩
  | mention _ _ hjump => exact ⟨fun l hl => hls (List.mem_append_left _ hl), hjump⟩

theorem MarkedAll.within (h : MarkedAll target ops ms) (hls : ms.flatMap Mark.labels ⊆ ls) :
    ∀ op ∈ ops, op.Within ls := by
  induction h with
  | nil => exact fun op hop => absurd hop List.not_mem_nil
  | cons hop _ ih =>
      rw [List.flatMap_append] at hls
      obtain ⟨hfirst, hrest⟩ := List.append_subset.1 hls
      exact List.forall_mem_cons.2 ⟨hop.within hfirst, ih hrest⟩
  | room n _ ih => exact ih hls

end Selection

end TreeCompiler
