import TreeCompiler.Machine.X86
import TreeCompiler.Output.Basic
import TreeCompiler.Proofs.AllocatedCode
import TreeCompiler.Proofs.Grammar.RoundTrip
import TreeCompiler.Proofs.Templates

/-!
# AssemblyText — nothing is left open in assembly text

Each allocated instruction is an operation with other operands: one that was selected, with labels
of the text, or one that was inserted for a spilled temp (`Procedure.CodeOf.exists_operation`).  Its
temps all have the names of registers, so its holes are filled with these and with labels.  So in
the assembly text of a file, which is made of these instructions, no hole and no temp is left
(`Procedure.assembly_resolved`).
-/

namespace TreeCompiler

open Selection Allocation Assembly

/-! ## Labels of a text -/

mutual

/-- A printed expression has each of its labels as an identifier. -/
theorem Exp.mem_labels {l : Label} : ∀ e : Exp, l ∈ e.labels ↔ Token.ident l ∈ e.tokens
  | .binop _ a b => by simp [Exp.labels, Exp.tokens, a.mem_labels, b.mem_labels]
  | .mem a => by simp [Exp.labels, Exp.tokens, a.mem_labels]
  | .temp _ => by simp [Exp.labels, Exp.tokens]
  | .eseq s e => by simp [Exp.labels, Exp.tokens, s.mem_labels, e.mem_labels]
  | .name _ => by simp [Exp.labels, Exp.tokens]
  | .const _ => by simp [Exp.labels, Exp.tokens]
  | .call f args => by simp [Exp.labels, Exp.tokens, f.mem_labels, Exp.mem_labelsAll args]

theorem Exp.mem_labelsAll {l : Label} :
    ∀ es : List Exp, l ∈ Exp.labelsAll es ↔ Token.ident l ∈ Exp.tokensAll es
  | [] => by simp [Exp.labelsAll, Exp.tokensAll]
  | e :: es => by simp [Exp.labelsAll, Exp.tokensAll, e.mem_labels, Exp.mem_labelsAll es]

theorem Stm.mem_labels {l : Label} : ∀ s : Stm, l ∈ s.labels ↔ Token.ident l ∈ s.tokens
  | .seq a b => by simp [Stm.labels, Stm.tokens, a.mem_labels, b.mem_labels]
  | .label _ => by simp [Stm.labels, Stm.tokens]
  | .jump e ls => by simp [Stm.labels, Stm.tokens, e.mem_labels]
  | .cjump _ a b _ _ => by simp [Stm.labels, Stm.tokens, a.mem_labels, b.mem_labels]
  | .move d s => by simp [Stm.labels, Stm.tokens, d.mem_labels, s.mem_labels]
  | .exp e => by simp [Stm.labels, Stm.tokens, e.mem_labels]

end

/-- The labels that occur in the body of a procedure. -/
def Procedure.labels (p : Procedure) : List Label := p.body.flatMap Stm.labels

theorem Procedure.mem_labels {l : Label} {p : Procedure} (h : l ∈ p.labels) :
    Token.ident l ∈ p.tokens := by
  have hbody : Token.ident l ∈ p.body.flatMap Stm.tokens := by
    obtain ⟨s, hs, hl⟩ := List.mem_flatMap.1 h
    exact List.mem_flatMap.2 ⟨s, hs, s.mem_labels.1 hl⟩
  simp [Procedure.tokens, hbody]

/-! ## Operations of allocated code -/

theorem Template.Operand.exists_rename {i : Instr} {f : Temp → Temp} {h : Template.Operand} :
    h.Exists (i.rename f) ↔ h.Exists i := by
  cases h <;> simp [Template.Operand.Exists]

/-- Inserted code has no labels. -/
theorem Insertion.within (what : Insertion) (a b : Temp) (ls : List Label) :
    (what.operation a b).Within ls := by
  cases what <;> exact ⟨List.nil_subset ls, rfl⟩

namespace Procedure

variable {p : Procedure} {ps : List Procedure} {m : Machine} {options : AllocOptions} {i : Nat}
  {a : Allocation}

/-- Each allocated instruction is an operation within the labels of the procedure, with other temps
for operands. -/
theorem CodeOf.exists_operation {ops : List Operation} {final : List (Operation × (Temp → Temp))}
    {slots : List (Temp × Int)} (h : CodeOf p m a ops final slots) {j : Instr} (hj : j ∈ a.instrs) :
    ∃ (op : Operation) (f : Temp → Temp), op.Within p.labels ∧
      j = (op.instr ⟨m, a.frame.sizeSymbol⟩).rename f := by
  rw [h.instrs] at hj
  obtain ⟨⟨op, f⟩, he, rfl⟩ := List.mem_map.1 hj
  refine ⟨op, f, ?_, by rw [h.target_eq]⟩
  rcases h.origin _ he with hop | rfl | ⟨what, b, c, rfl, -⟩
  · exact h.marked.within (flatMap_marks_subset _) op hop
  · exact ⟨List.nil_subset _, rfl⟩
  · exact what.within b c _

end Procedure

/-! ## Lines of a text -/

namespace Assembly

/-- A text in which nothing is left open, whatever follows it. -/
def Closed (cs : List Char) : Prop := ∀ rest, Resolved rest → Resolved (cs ++ rest)

section Closed

variable {cs ds : List Char} {ss : List String}

theorem Closed.resolved (h : Closed cs) : Resolved cs := by
  simpa using h [] resolved_nil

theorem closed_nil : Closed [] := fun _ h => h

theorem Closed.append (hc : Closed cs) (hd : Closed ds) : Closed (cs ++ ds) := fun rest h => by
  rw [List.append_assoc]
  exact hc _ (hd rest h)

/-- A text ends with a separator. -/
theorem Resolved.closed {c : Char} (h : Resolved cs) (hc : isSeparator c = true) :
    Closed (cs ++ [c]) := fun rest hrest => by
  rw [List.append_assoc]
  exact h.append hrest hc

theorem closed_join (h : ∀ s ∈ ss, Closed s.toList) : Closed (String.join ss).toList := by
  induction ss with
  | nil => exact closed_nil
  | cons s ss ih =>
      obtain ⟨hs, hss⟩ := List.forall_mem_cons.1 h
      rw [String.join_cons, String.toList_append]
      exact hs.append (ih hss)

end Closed

/-- The registers of the built-in machine are no temps. -/
theorem resolved_register : ∀ name ∈ Machine.x86_64.names, Resolved ("%" ++ name).toList := by
  decide

/-- A temp with the name of a register is written as a register of the built-in machine. -/
theorem exists_register {names : NameMap} {t : Temp} (h : Names .x86_64 names t) :
    ∃ name ∈ Machine.x86_64.names, names.lookup t = "%" ++ name := by
  have hregister : ∀ r name, Machine.x86_64.asmName? r = some name → names.get? t = some name →
      ∃ bare ∈ Machine.x86_64.names, names.lookup t = "%" ++ bare := by
    intro r name hname hget
    obtain ⟨bare, hbare, rfl⟩ := Option.map_eq_some_iff.1 hname
    exact ⟨bare, List.mem_of_getElem? hbare, by rw [TempMap.lookup, hget]; rfl⟩
  cases h with
  | register _ hname hget => exact hregister _ _ hname hget
  | allocated _ _ hname hget => exact hregister _ _ hname hget

theorem resolved_lookup {names : NameMap} {t : Temp} (h : Names .x86_64 names t) :
    Resolved (names.lookup t).toList := by
  obtain ⟨name, hname, heq⟩ := exists_register h
  exact heq ▸ resolved_register name hname

/-- The symbol of the frame size is a word, and no temp. -/
theorem resolved_sizeSymbol {name : Label} (h : (Token.ident name).Spelled) :
    Resolved (name ++ "_framesize").toList := by
  rw [String.toList_append]
  refine resolved_word (List.forall_mem_append.2
    ⟨Token.isWordChar_of_isWord h.1, List.all_eq_true.1 (by decide)⟩) ?_
  have hmark : '_' ∈ name.toList ++ "_framesize".toList := List.mem_append_right _ (by decide)
  unfold isTempWord
  split
  · rename_i d ds htext
    rw [htext] at hmark
    refine Bool.eq_false_iff.2 fun hdigits => ?_
    have hdigit := List.all_eq_true.1 hdigits '_' ((List.mem_cons.1 hmark).resolve_left (by decide))
    exact absurd hdigit (by decide)
  · rfl

section Operations

variable {symbol : String} {op : Operation} {ls : List Label} {f : Temp → Temp} {names : NameMap}

theorem resolved_names_line (hop : op.Within ls) (hsymbol : Resolved symbol.toList)
    (hls : ∀ l ∈ ls, Resolved l.toList) :
    ∀ name ∈ (op.line symbol).names, Resolved name.toList := by
  intro name hname
  rcases Operation.mem_names_line hname with rfl | hmem
  · exact hsymbol
  · exact hls name (hop.labels hmem)

/-- The holes of an operation with other operands are for what it has. -/
theorem exists_of_hole_rename (hop : op.Within ls) (hsymbol : Resolved symbol.toList)
    (hls : ∀ l ∈ ls, Resolved l.toList) {h : Template.Operand}
    (hh : .hole h ∈ Template.pieces ((op.instr (.x86_64 symbol)).rename f).text.toList) :
    h.Exists ((op.instr (.x86_64 symbol)).rename f) := by
  rw [Instr.text_rename, Operation.text_instr,
    (cut_print (resolved_names_line hop hsymbol hls)).pieces_eq] at hh
  exact Template.Operand.exists_rename.2 (Operation.exists_of_hole hop.jump h hh)

/-- The text of an operation with other operands, which have names. -/
theorem resolved_fill_rename (hop : op.Within ls) (hsymbol : Resolved symbol.toList)
    (hls : ∀ l ∈ ls, Resolved l.toList)
    (hnames : ∀ t ∈ ((op.instr (.x86_64 symbol)).rename f).defs ++
      ((op.instr (.x86_64 symbol)).rename f).uses, Names .x86_64 names t) :
    Resolved (((op.instr (.x86_64 symbol)).rename f).fill names).toList := by
  by_cases hlabel : ∃ l, op = .label l
  · obtain ⟨l, rfl⟩ := hlabel
    change Resolved (l ++ ":").toList
    rw [String.toList_append]
    exact ((hls l (hop.labels (List.mem_singleton_self l))).closed (by decide)).resolved
  · refine Instr.resolved_fill (l := op.line symbol) ?_ ?_ (resolved_names_line hop hsymbol hls)
      (fun h hh => Template.Operand.exists_rename.2 (Operation.exists_of_hole hop.jump h hh))
      (fun t ht => resolved_lookup (hnames t ht)) fun l hl => ?_
    · rw [Instr.label?_rename]
      exact Operation.label?_instr _ fun l hl => hlabel ⟨l, hl⟩
    · rw [Instr.text_rename, Operation.text_instr]
    · rw [Instr.targets_rename] at hl
      exact hls l (hop.labels (op.targets_subset _ hl))

end Operations

theorem closed_assemblyLine {names : NameMap} {i : Instr} (h : Resolved (i.fill names).toList) :
    Closed (Output.assemblyLine names i).toList := by
  have hline : Closed (i.fill names ++ "\n").toList := by
    rw [String.toList_append]
    exact h.closed (by decide)
  unfold Output.assemblyLine
  split
  · exact hline
  · dsimp only
    split
    · exact closed_nil
    · rw [String.append_assoc, String.toList_append]
      exact (resolved_nil.closed (c := '\t') (by decide)).append hline

/-- A fixed text that ends with a separator. -/
theorem closed_text {s : String} (h : Resolved s.toList)
    (hlast : s.toList.getLast?.any isSeparator = true) : Closed s.toList := by
  obtain ⟨c, hc, hseparator⟩ := (Option.any_eq_true ..).1 hlast
  obtain ⟨cs, htext⟩ := List.getLast?_eq_some_iff.1 hc
  rw [htext] at h ⊢
  exact ((resolved_append_cons hseparator).1 h).1.closed hseparator

/-- A word goes on to a fixed text that begins with a separator. -/
theorem Closed.append_word {cs w : List Char} {s : String} (h : Closed cs) (hw : Resolved w)
    (hs : Closed s.toList) (hhead : s.toList.head?.any isSeparator = true) :
    Closed (cs ++ w ++ s.toList) := by
  intro rest hrest
  obtain ⟨c, hc, hseparator⟩ := (Option.any_eq_true ..).1 hhead
  obtain ⟨ds, htext⟩ := List.head?_eq_some_iff.1 hc
  have hrest := hs rest hrest
  rw [htext] at hrest ⊢
  rw [List.append_assoc, List.append_assoc]
  exact h _ (hw.append ((resolved_cons hseparator).1 hrest) hseparator)

/-- Nothing is left open in the text of a procedure, whatever follows it. -/
theorem closed_assemblyOf {a : Allocation} (hname : Resolved a.frame.name.toList)
    (hsymbol : Resolved a.frame.sizeSymbol.toList)
    (hlines : ∀ i ∈ a.instrs, Resolved (i.fill a.coloring).toList) :
    Closed (Output.assemblyOf a).toList := by
  have hbody : Closed (String.join (a.instrs.map (Output.assemblyLine a.coloring))).toList := by
    refine closed_join fun s hs => ?_
    obtain ⟨i, hi, rfl⟩ := List.mem_map.1 hs
    exact closed_assemblyLine (hlines i hi)
  have hsize := resolved_number a.frame.size
  have hglobl : Closed ".globl ".toList := closed_text (by decide) (by decide)
  have hnewline : Closed "\n".toList := closed_text (by decide) (by decide)
  have hset : Closed ".set ".toList := closed_text (by decide) (by decide)
  have hcomma : Closed ", ".toList := closed_text (by decide) (by decide)
  have hcolon : Closed ":\n".toList := closed_text (by decide) (by decide)
  have hsub : Closed "\tsubq $".toList := closed_text (by decide) (by decide)
  have hadd : Closed "\taddq $".toList := closed_text (by decide) (by decide)
  have hrsp : Closed ", %rsp\n".toList := closed_text (by decide) (by decide)
  have hret : Closed "\tretq\n\n".toList := closed_text (by decide) (by decide)
  -- the parts of the text in order: behind each name and each number stands a separator
  unfold Output.assemblyOf
  simp only [String.toList_append]
  have hhead := (hglobl.append_word hname hnewline (by decide)).append hset
  have hset := (hhead.append_word hsymbol hcomma (by decide)).append_word hsize hnewline (by decide)
  have hentry := (hset.append_word hname hcolon (by decide)).append hsub
  have hbody := (hentry.append_word hsize hrsp (by decide)).append hbody
  exact ((hbody.append hadd).append_word hsize hrsp (by decide)).append hret

end Assembly

/-! ## Files -/

/-- Each hole in the text of an instruction is for something that the instruction has, and each of
its temps has the name of a register: an allocatable one unless it is a register itself. -/
structure Instr.Complete (m : Machine) (names : NameMap) (i : Instr) : Prop where
  holes : ∀ h : Template.Operand, .hole h ∈ Template.pieces i.text.toList → h.Exists i
  named : ∀ t ∈ i.defs ++ i.uses, Names m names t

/-- The allocations of a file are those of its attempts, all of which succeeded. -/
theorem Attempt.outcomes_of_allocations? {attempts : List Attempt} {as : List Allocation}
    (h : allocations? attempts = some as) : attempts.map Attempt.outcome = as.map .ok := by
  induction attempts generalizing as with
  | nil =>
      cases h
      rfl
  | cons attempt attempts ih =>
      unfold allocations? at h ih
      rw [List.mapM_cons] at h
      obtain ⟨b, hb, h⟩ := Option.bind_eq_some_iff.1 h
      obtain ⟨bs, hbs, h⟩ := Option.bind_eq_some_iff.1 h
      cases h
      rw [List.map_cons, List.map_cons, ih hbs]
      cases hout : attempt.outcome with
      | error e =>
          rw [hout] at hb
          cases hb
      | ok b =>
          rw [hout] at hb
          cases hb
          rfl

namespace Procedure

variable {p : Procedure} {ps : List Procedure} {options : AllocOptions} {i : Nat} {a : Allocation}

theorem closed_of_compile (hspelled : AllSpelled p.tokens) (hp : ps[i]? = some p)
    (hok : (p.compile .x86_64 options (namerAt ps .x86_64 options i)).1.outcome = .ok a) :
    (∀ j ∈ a.instrs, j.Complete .x86_64 a.coloring) ∧ Closed (Output.assemblyOf a).toList := by
  obtain ⟨ops, final, slots, hcode⟩ := exists_codeOf hp hok
  have hname : (Token.ident p.name).Spelled := hspelled _ (by simp [Procedure.tokens])
  have hsymbol : Resolved a.frame.sizeSymbol.toList := by
    rw [Frame.sizeSymbol, hcode.name]
    exact resolved_sizeSymbol hname
  have hlabels : ∀ l ∈ p.labels, Resolved l.toList := fun l hl =>
    resolved_label (hspelled _ (mem_labels hl))
  refine ⟨fun j hj => ?_,
    closed_assemblyOf (hcode.name ▸ resolved_label hname) hsymbol fun j hj => ?_⟩
  · have hnamed := hcode.named j hj
    obtain ⟨op, f, hop, rfl⟩ := hcode.exists_operation hj
    exact ⟨fun h hh => exists_of_hole_rename hop hsymbol hlabels hh, hnamed⟩
  · have hnamed := hcode.named j hj
    obtain ⟨op, f, hop, rfl⟩ := hcode.exists_operation hj
    exact resolved_fill_rename hop hsymbol hlabels hnamed

/-- Each allocation of a file is that of the procedure at its position. -/
theorem exists_procedure {m : Machine} {as : List Allocation}
    (hok : Attempt.allocations? (compileFile ps m options).1 = some as) (hi : as[i]? = some a) :
    ∃ p, ps[i]? = some p ∧
      (p.compile m options (namerAt ps m options i)).1.outcome = .ok a := by
  have houtcomes := congrArg (·[i]?) (Attempt.outcomes_of_allocations? hok)
  simp only [List.getElem?_map, hi, Option.map_some] at houtcomes
  obtain ⟨attempt, hattempt, hout⟩ := Option.map_eq_some_iff.1 houtcomes
  obtain ⟨p, hp, rfl⟩ := exists_of_getElem?_compileFile hattempt
  exact ⟨p, hp, hout⟩

/-- What holds of each procedure that compiles and its allocation holds all along a file. -/
theorem forall₂_of_compile {m : Machine} {as : List Allocation} {R : Procedure → Allocation → Prop}
    (hok : Attempt.allocations? (compileFile ps m options).1 = some as)
    (h : ∀ (i : Nat) (p : Procedure) (a : Allocation), ps[i]? = some p →
      (p.compile m options (namerAt ps m options i)).1.outcome = .ok a → R p a) :
    List.Forall₂ R ps as := by
  have hlength : ps.length = as.length := by
    have houtcomes := congrArg List.length (Attempt.outcomes_of_allocations? hok)
    rw [List.length_map, List.length_map] at houtcomes
    exact length_compileAll.symm.trans houtcomes
  refine List.forall₂_iff_get.2 ⟨hlength, fun i hps has => ?_⟩
  have hp : ps[i]? = some (ps.get ⟨i, hps⟩) := List.getElem?_eq_getElem hps
  obtain ⟨p, hp', hout⟩ := exists_procedure hok (List.getElem?_eq_getElem has)
  cases hp.symm.trans hp'
  exact h i _ _ hp hout

/-- The assembly text of a file has no hole and no temp left in it.  All instructions are complete,
and so is the text that they are written as. -/
theorem assembly_resolved {text : String} {as : List Allocation}
    (hparse : parseText .x86_64 text = .ok ps)
    (hok : Attempt.allocations? (compileFile ps .x86_64 options).1 = some as) :
    (∀ a ∈ as, ∀ j ∈ a.instrs, j.Complete .x86_64 a.coloring) ∧
      Resolved (Output.assembly as).toList := by
  have hclosed : ∀ a ∈ as, (∀ j ∈ a.instrs, j.Complete .x86_64 a.coloring) ∧
      Closed (Output.assemblyOf a).toList := by
    intro a ha
    obtain ⟨i, hi⟩ := List.mem_iff_getElem?.1 ha
    obtain ⟨p, hp, hout⟩ := exists_procedure hok hi
    exact closed_of_compile
      (fun t ht => (printable_of_parseText hparse _ (List.mem_of_getElem? hp) t ht).1) hp hout
  refine ⟨fun a ha => (hclosed a ha).1, (closed_join fun s hs => ?_).resolved⟩
  obtain ⟨a, ha, rfl⟩ := List.mem_map.1 hs
  exact (hclosed a ha).2

/-- A call and a jump. -/
theorem assembly_resolved_call : ∃ ps as,
    parseText .x86_64 "proc f frame 0 \x7b EXP(CALL(NAME g, CONST 1)) JUMP(NAME L) LABEL L \x7d" =
      .ok ps ∧
    Attempt.allocations? (compileFile ps .x86_64 {}).1 = some as ∧ as.length = 1 ∧
    (∀ a ∈ as, ∀ j ∈ a.instrs, j.Complete .x86_64 a.coloring) ∧
      Resolved (Output.assembly as).toList := by
  have hparse : parseText .x86_64
      "proc f frame 0 \x7b EXP(CALL(NAME g, CONST 1)) JUMP(NAME L) LABEL L \x7d" =
        .ok [⟨"f", 0, [.exp (.call (.name "g") [.const 1]), .jump (.name "L") [],
          .label "L"]⟩] := by
    decide +kernel
  have hcompiles : (Attempt.allocations? (compileFile [⟨"f", 0,
      [.exp (.call (.name "g") [.const 1]), .jump (.name "L") [], .label "L"]⟩] .x86_64 {}).1).any
        (fun as => as.length = 1) = true := by
    decide +kernel
  obtain ⟨as, hok, hlength⟩ := (Option.any_eq_true ..).1 hcompiles
  exact ⟨_, as, hparse, hok, of_decide_eq_true hlength, assembly_resolved hparse hok⟩

end Procedure

end TreeCompiler
