import TreeCompiler.Proofs.Registers
import TreeCompiler.Proofs.Renumbering.Analysis
import TreeCompiler.Proofs.Renumbering.Selection

/-!
# Renumbered rounds — allocation gives renumbered code the same registers

Coloring chooses by nodes, and between nodes of one degree by the order of their temps, so a
renumbered graph is colored alike (`Coloring.run_renumber`) and spills the renumbered temps.  These
are moved to the same slots, in code that corresponds again (`Frame.spill_rename`).  So allocation
makes the same rounds, and ends with the same frame and the same registers
(`Frame.allocate_rename`).
-/

namespace TreeCompiler

/-! ## Coloring -/

/-- The same result, for renumbered temps. -/
structure ColorResult.Renumbered (f : Renumbering) (r r' : ColorResult) : Prop where
  colors : TempMap.Renumbered f r.colors r'.colors
  spilled : r'.spilled = r.spilled.renumber f

namespace Coloring

open Interference (Built)

variable {f : Renumbering} {g g' : Interference} {m : Machine}

theorem renumbered_addColor (c : Coloring) (f : Renumbering) (b : Bool) (n : Nat)
    {colors colors' : TempMap Nat} (h : TempMap.Renumbered f colors colors') :
    TempMap.Renumbered f (c.addColor colors n) ((c.relabel f b).addColor colors' n) := by
  intro t
  have houtcome : (c.relabel f b).outcome n = c.outcome n := rfl
  rw [get?_addColor, get?_addColor, temp_relabel, houtcome, h t]
  simp only [f.eq_iff]

theorem renumbered_result (c : Coloring) (f : Renumbering) (b : Bool) :
    c.result.Renumbered f (c.relabel f b).result where
  colors := by
    rw [colors_result, colors_result, nodes_relabel]
    exact List.foldl_rel TempMap.renumbered_empty fun n _ _ _ h => renumbered_addColor c f b n h
  spilled := by
    have htemps : ∀ ns : List Nat, ns.map (c.relabel f b).temp = (ns.map c.temp).map f := by
      intro ns
      rw [List.map_map]
      exact List.map_congr_left fun n _ => temp_relabel c f b n
    unfold result
    dsimp only
    rw [nodes_relabel, htemps, SortedSet.ofList_renumber]
    rfl

/-- A renumbered graph has a relabeled start. -/
theorem ofGraph_renumber (h : g.Renumbered f g') (m : Machine) (options : AllocOptions)
    (avoid : TempSet) : ofGraph g' m options (avoid.renumber f)
      = (ofGraph g m options avoid).relabel f options.checkInvariants := by
  have htemps : g'.temps = g.temps.map f := by
    simp [Interference.temps, h.graph, Digraph.map]
  have hnodes : ofNodes g' m options (avoid.renumber f)
      = (ofNodes g m options avoid).relabel f options.checkInvariants := by
    simp only [ofNodes, relabel, htemps, h.graph, Digraph.map, List.map_map, Function.comp_def,
      f.isRegister, f.colorOf?, SortedSet.contains_renumber, List.length_map]
  have hedges : g'.edges = g.edges := by
    unfold Interference.edges Digraph.ids Interference.adjacent
    rw [h.graph, Digraph.size_map]
    rfl
  rw [ofGraph_eq, ofGraph_eq, hnodes, hedges, h.moves,
    foldl_relabel _ f _ fun c e => addEdge_relabel c f _ e.1 e.2]
  refine foldl_relabel _ f _ (fun c e => ?_) _
  rfl

/-- A renumbered graph is colored alike. -/
theorem run_renumber (hg : Built m g) (h : g.Renumbered f g') (options : AllocOptions)
    (avoid : TempSet) : ∃ r r', (ofGraph g m options avoid).run = .ok r ∧
      (ofGraph g' m options (avoid.renumber f)).run = .ok r' ∧ r.Renumbered f r' := by
  -- both are runs of one start with other labels, the first one with its own
  obtain ⟨d, _, _, hrun⟩ := (start_ofGraph hg.wellFormed m options avoid).run_relabel
  have hstart : (ofGraph g m options avoid).relabel .refl options.checkInvariants
      = ofGraph g m options avoid := by
    rw [← withChecks_eq, ← ofGraph_withChecks]
  have hrefl := hrun .refl options.checkInvariants
  rw [hstart, ← withChecks_eq] at hrefl
  refine ⟨_, _, hrefl, ?_, renumbered_result d.assignColors f options.checkInvariants⟩
  rw [ofGraph_renumber h]
  exact hrun f options.checkInvariants

end Coloring

/-! ## Spilling -/

/-- A place for another temp. -/
def Access.rename (f : Temp → Temp) : Access → Access
  | .register t => .register (f t)
  | .frame offset => .frame offset

/-- The code for renamed temps. -/
def SpilledCode.rename (f : Temp → Temp) (s : SpilledCode) : SpilledCode :=
  ⟨s.instrs.map (Instr.rename f), s.fresh.map f⟩

namespace Instr

variable (f : Renumbering) (i : Instr) (old new : Temp)

theorem replace_rename (t : Temp) : replace (f old) (f new) (f t) = f (replace old new t) := by
  simp only [replace, f.eq_iff]
  split <;> rfl

theorem renameUses_rename :
    (i.rename f).renameUses (f old) (f new) = (i.renameUses old new).rename f := by
  cases i <;> simp [rename, renameUses, Function.comp_def, replace_rename]

theorem renameDefs_rename :
    (i.rename f).renameDefs (f old) (f new) = (i.renameDefs old new).rename f := by
  cases i <;> simp [rename, renameDefs, Function.comp_def, replace_rename]

end Instr

namespace Spill

variable {f : Renumbering} {n n' : Namer}

/-- An entry for a renamed temp. -/
def renameEntry (f : Temp → Temp) (e : Temp × Access) : Temp × Access := (f e.1, e.2.rename f)

theorem slots_rename (f : Temp → Temp) (frame : Frame) (ts : List Temp) :
    slots frame (ts.map f) = ((slots frame ts).1.map (renameEntry f), (slots frame ts).2) := by
  induction ts generalizing frame with
  | nil => rfl
  | cons t ts ih =>
      rw [List.map_cons, slots, slots]
      simp only [ih]
      rfl

theorem lookup_rename (f : Renumbering) (entries : List (Temp × Access)) (t : Temp) :
    (entries.map (renameEntry f)).lookup (f t) = (entries.lookup t).map (Access.rename f) := by
  induction entries with
  | nil => rfl
  | cons e entries ih =>
      have hbeq : (f t == f e.1) = (t == e.1) := by
        rw [Bool.eq_iff_iff, beq_iff_eq, beq_iff_eq, f.eq_iff]
      rw [List.map_cons, renameEntry, List.lookup_cons, List.lookup_cons, hbeq, ih]
      split <;> rfl

theorem places_rename (f : Renumbering) (entries : List (Temp × Access)) :
    places (entries.map (renameEntry f)) = (places entries).map (renameEntry f) := by
  unfold places
  rw [List.map_map, List.map_map, ← List.map_reverse]
  refine List.map_congr_left fun e _ => ?_
  have hlookup : ((entries.reverse.map (renameEntry f)).lookup (f e.1)).getD (e.2.rename f)
      = ((entries.reverse.lookup e.1).getD e.2).rename f := by
    rw [lookup_rename, Option.getD_map]
  exact congrArg (Prod.mk (f e.1)) hlookup

/-- The same replacement for renamed temps. -/
def Replaced.rename (f : Temp → Temp) (r : Replaced) : Replaced :=
  ⟨r.instr.rename f, r.fresh.map f, r.loads.map (Stm.rename f), r.stores.map (Stm.rename f)⟩

theorem toExp_rename (f : Temp → Temp) (a : Access) (fp : Exp) :
    (a.rename f).toExp (fp.rename f) = (a.toExp fp).rename f := by
  cases a <;> rfl

theorem contains_rename (f : Renumbering) (ts : List Temp) (t : Temp) :
    (ts.map f).contains (f t) = ts.contains t := by
  rw [Bool.eq_iff_iff, List.contains_iff_mem, List.contains_iff_mem]
  simp

/-- A fresh temp in the place of one that is used or defined. -/
def Replaced.swap (r : Replaced) (used defined : Bool) (old new : Temp) (place : Exp) : Replaced :=
  let i := if used then r.instr.renameUses old new else r.instr
  ⟨if defined then i.renameDefs old new else i, r.fresh ++ [new],
    r.loads ++ if used then [.move (.temp new) place] else [],
    r.stores ++ if defined then [.move place (.temp new)] else []⟩

theorem Replaced.swap_rename (f : Renumbering) (r : Replaced) (used defined : Bool) (old new : Temp)
    (place : Exp) : (r.rename f).swap used defined (f old) (f new) (place.rename f)
      = (r.swap used defined old new place).rename f := by
  cases used <;> cases defined <;>
    simp [swap, rename, Instr.renameUses_rename, Instr.renameDefs_rename, Stm.rename, Exp.rename]

theorem replaceTemps_cons (fp : Exp) (defs uses : List Temp) (e : Temp × Access)
    (slots : List (Temp × Access)) (r : Replaced) (n : Namer) :
    replaceTemps fp defs uses (e :: slots) r n =
      if !uses.contains e.1 && !defs.contains e.1 then replaceTemps fp defs uses slots r n
      else replaceTemps fp defs uses slots (r.swap (uses.contains e.1) (defs.contains e.1) e.1
        n.freshTemp.1 (e.2.toExp fp)) n.freshTemp.2 := rfl

theorem replaceTemps_rename (hn : f.Follows n n') (fp : Exp) (defs uses : List Temp)
    (slots : List (Temp × Access)) (r : Replaced) :
    (replaceTemps (fp.rename f) (defs.map f) (uses.map f) (slots.map (renameEntry f)) (r.rename f)
        n').1 = (replaceTemps fp defs uses slots r n).1.rename f ∧
      f.Follows (replaceTemps fp defs uses slots r n).2 (replaceTemps (fp.rename f) (defs.map f)
        (uses.map f) (slots.map (renameEntry f)) (r.rename f) n').2 := by
  induction slots generalizing r n n' with
  | nil => exact ⟨rfl, hn⟩
  | cons e slots ih =>
      rw [List.map_cons, replaceTemps_cons, replaceTemps_cons]
      simp only [renameEntry, contains_rename]
      split
      · exact ih hn r
      · rw [hn.fresh, toExp_rename, Replaced.swap_rename]
        exact ih hn.next _

/-- Corresponding moves are selected in corresponding instructions. -/
theorem selectMoves_rename (hn : f.Follows n n') (target : Target) (moves : List Stm) :
    Alike (fun is is' => is' = is.map (Instr.rename f)) (selectMoves target moves n).1
        (selectMoves target (moves.map (Stm.rename f)) n').1 ∧
      f.Follows (selectMoves target moves n).2
        (selectMoves target (moves.map (Stm.rename f)) n').2 := by
  obtain ⟨hresult, hS⟩ :=
    Selection.renumbers_statements moves { namer := n } { namer := n' } ⟨hn, rfl, rfl⟩
  exact ⟨hresult.map fun _ _ _ => hS.instrs target, hS.namer⟩

theorem spillInstr_rename (hn : f.Follows n n') (target : Target) (slots : List (Temp × Access))
    (i : Instr) :
    Alike (fun s s' => s' = s.rename f) (spillInstr target slots i n).1
        (spillInstr target (slots.map (renameEntry f)) (i.rename f) n').1 ∧
      f.Follows (spillInstr target slots i n).2
        (spillInstr target (slots.map (renameEntry f)) (i.rename f) n').2 := by
  have hfp : (Exp.temp target.machine.framePointer).rename f = .temp target.machine.framePointer :=
    congrArg Exp.temp (f.framePointer _)
  have hstart : ({ instr := i.rename f } : Replaced) = Replaced.rename f { instr := i } := rfl
  have hreplace := replaceTemps_rename hn (.temp target.machine.framePointer) i.defs i.uses slots
    { instr := i }
  unfold spillInstr
  dsimp only
  rw [Instr.defs_rename, Instr.uses_rename, hstart]
  rw [hfp] at hreplace
  -- the two runs side by side: the operands, then the loads, then the stores
  generalize replaceTemps (.temp target.machine.framePointer) i.defs i.uses slots
    { instr := i } n = q at hreplace ⊢
  generalize replaceTemps (.temp target.machine.framePointer) (i.defs.map f) (i.uses.map f)
    (slots.map (renameEntry f)) (Replaced.rename f { instr := i }) n' = q' at hreplace ⊢
  obtain ⟨q, n₁⟩ := q
  obtain ⟨q', n₁'⟩ := q'
  obtain ⟨rfl, hn₁⟩ := hreplace
  have hloads := selectMoves_rename hn₁ target q.loads
  dsimp only [Replaced.rename] at hloads ⊢
  generalize selectMoves target q.loads n₁ = loads at hloads ⊢
  generalize selectMoves target (q.loads.map (Stm.rename f)) n₁' = loads' at hloads ⊢
  obtain ⟨before, n₂⟩ := loads
  obtain ⟨before', n₂'⟩ := loads'
  obtain ⟨hbefore, hn₂⟩ := hloads
  cases hbefore with
  | error e e' => exact ⟨.error e e', hn₂⟩
  | ok h =>
      cases h
      obtain ⟨hstores, hn₃⟩ := selectMoves_rename hn₂ target q.stores
      refine ⟨hstores.map fun behind behind' h => ?_, hn₃⟩
      simp [SpilledCode.rename, h]

theorem spillAll_rename (hn : f.Follows n n') (target : Target) (slots : List (Temp × Access))
    (code : List Instr) :
    Alike (fun ss ss' => ss' = ss.map (SpilledCode.rename f)) (spillAll target slots code n).1
        (spillAll target (slots.map (renameEntry f)) (code.map (Instr.rename f)) n').1 ∧
      f.Follows (spillAll target slots code n).2
        (spillAll target (slots.map (renameEntry f)) (code.map (Instr.rename f)) n').2 := by
  induction code generalizing n n' with
  | nil => exact ⟨.ok rfl, hn⟩
  | cons i rest ih =>
      have hfirst := spillInstr_rename hn target slots i
      rw [List.map_cons, spillAll, spillAll]
      generalize spillInstr target slots i n = first at hfirst ⊢
      generalize spillInstr target (slots.map (renameEntry f)) (i.rename f) n' = first' at hfirst ⊢
      obtain ⟨s, n₁⟩ := first
      obtain ⟨s', n₁'⟩ := first'
      obtain ⟨hs, hn₁⟩ := hfirst
      cases hs with
      | error e e' => exact ⟨.error e e', hn₁⟩
      | ok h =>
          obtain ⟨hrest, hn₂⟩ := ih hn₁
          exact ⟨hrest.map fun ss ss' h' => by rw [h, h', List.map_cons], hn₂⟩

end Spill

/-- Renumbered temps of renumbered code are moved to the same slots. -/
theorem Frame.spill_rename {f : Renumbering} {n n' : Namer} (hn : f.Follows n n') (frame : Frame)
    (m : Machine) (code : List Instr) (ts : List Temp) :
    Alike (fun s s' => s' = s.rename f) (frame.spill m code ts n).1
        (frame.spill m (code.map (Instr.rename f)) (ts.map f) n').1 ∧
      (frame.spill m (code.map (Instr.rename f)) (ts.map f) n').2.1 =
        (frame.spill m code ts n).2.1 ∧
      f.Follows (frame.spill m code ts n).2.2
        (frame.spill m (code.map (Instr.rename f)) (ts.map f) n').2.2 := by
  unfold Frame.spill
  rw [Spill.slots_rename]
  dsimp only
  rw [Spill.places_rename]
  obtain ⟨hall, hn'⟩ := Spill.spillAll_rename hn ⟨m, frame.sizeSymbol⟩
    (Spill.places (Spill.slots frame ts).1) code
  refine ⟨hall.map fun ss ss' h => ?_, rfl, hn'⟩
  simp [h, SpilledCode.rename, List.flatMap_map, List.map_flatMap]

/-! ## Rounds -/

namespace Allocation

variable {f : Renumbering} {m : Machine} {options : AllocOptions}

theorem colorCode_rename (f : Renumbering) (m : Machine) (options : AllocOptions) (avoid : TempSet)
    (code : List Instr) :
    Alike (fun r r' => r'.1.temps = r.1.temps.map f ∧ r.2.Renumbered f r'.2)
      (colorCode m options avoid code)
      (colorCode m options (avoid.renumber f) (code.map (Instr.rename f))) := by
  unfold colorCode
  rw [FlowGraph.build_rename]
  cases hbuild : FlowGraph.build code with
  | error e => exact .error _ _
  | ok flow =>
      have hflow := FlowGraph.of_build hbuild
      obtain ⟨live, hanalyze, _, hlive⟩ := Liveness.analyze_spec hflow
      have hgraph := Interference.renumbered_build f m flow live
      obtain ⟨r, r', hrun, hrun', hresult⟩ :=
        Coloring.run_renumber (Interference.portrays_build hflow hlive).built hgraph options avoid
      simp only [bind, Except.bind, Except.map, Except.mapError, Liveness.analyze_rename, hanalyze,
        hrun, hrun']
      refine .ok ⟨?_, hresult⟩
      simp [Interference.temps, hgraph.graph, Digraph.map]

theorem registerOf_rename {r r' : ColorResult} (h : r.Renumbered f r') (m : Machine) (t : Temp) :
    Alike Eq (registerOf m r t) (registerOf m r' (f t)) := by
  unfold registerOf
  rw [h.colors t, f.isRegister]
  cases r.colors.get? t with
  | some color => exact .ok rfl
  | none =>
      dsimp only
      split
      · rename_i ht
        exact .ok (f.eq_self_of_register ht).symm
      · exact .error _ _

theorem registerNames_rename {r r' : ColorResult} (h : r.Renumbered f r') (m : Machine)
    (ts : List Temp) {names names' : NameMap} (hnames : TempMap.Renumbered f names names') :
    Alike (TempMap.Renumbered f) (registerNames m r ts names)
      (registerNames m r' (ts.map f) names') := by
  induction ts generalizing names names' with
  | nil => exact .ok hnames
  | cons t ts ih =>
      have hregister := registerOf_rename h m t
      rw [List.map_cons, registerNames, registerNames]
      generalize registerOf m r t = p at hregister ⊢
      generalize registerOf m r' (f t) = p' at hregister ⊢
      cases hregister with
      | error e e' => exact .error _ _
      | @ok p p' heq =>
          subst heq
          simp only [bind, Except.bind]
          cases m.asmName? p with
          | some name => exact ih (hnames.insert t name)
          | none => exact ih hnames

/-- The same progress, in renumbered code. -/
structure Progress.Renumbered (f : Renumbering) (p p' : Progress) : Prop where
  instrs : p'.instrs = p.instrs.map (Instr.rename f)
  frame : p'.frame = p.frame
  namer : f.Follows p.namer p'.namer
  introduced : p'.introduced = p.introduced.renumber f
  spilled : p'.spilled = p.spilled.map f

/-- The same allocation, of renumbered code. -/
structure Renumbered (f : Renumbering) (a a' : Allocation) : Prop where
  instrs : a'.instrs = a.instrs.map (Instr.rename f)
  /-- Temps have the same registers. -/
  coloring : TempMap.Renumbered f a.coloring a'.coloring
  spilled : a'.spilled = a.spilled.map f
  rounds : a'.rounds = a.rounds
  frame : a'.frame = a.frame

theorem removeRedundantMoves_rename {names names' : NameMap} (h : TempMap.Renumbered f names names')
    (code : List Instr) : removeRedundantMoves names' (code.map (Instr.rename f))
      = (removeRedundantMoves names code).map (Instr.rename f) := by
  unfold removeRedundantMoves
  rw [List.filter_map]
  congr 1
  refine List.filter_congr fun i _ => ?_
  simp only [Function.comp_apply, Instr.isRedundant, Instr.movePair?_rename]
  cases i.movePair? with
  | none => rfl
  | some e => simp only [Option.map_some, h e.1, h e.2]

theorem allocateWithin_rename {p p' : Progress} (h : p.Renumbered f p') (done left : Nat) :
    Alike (Renumbered f) (allocateWithin m options done left p).1
      (allocateWithin m options done left p').1 := by
  -- on the rounds that are left; a round takes corresponding progress to corresponding progress
  induction left generalizing done p p' with
  | zero => exact .error _ _
  | succ left ih =>
      have hcolor := colorCode_rename f m options p.introduced p.instrs
      rw [← h.introduced, ← h.instrs] at hcolor
      rw [allocateWithin, allocateWithin]
      generalize colorCode m options p.introduced p.instrs = r at hcolor ⊢
      generalize colorCode m options p'.introduced p'.instrs = r' at hcolor ⊢
      cases hcolor with
      | error e e' => exact .error _ _
      | @ok r r' hr =>
          obtain ⟨g, result⟩ := r
          obtain ⟨g', result'⟩ := r'
          obtain ⟨htemps, hresult⟩ := hr
          dsimp only at htemps hresult ⊢
          rw [hresult.spilled, SortedSet.isEmpty_renumber, SortedSet.toList_renumber, htemps]
          -- the last round names the registers, each other one spills
          split
          · refine (registerNames_rename hresult m g.temps TempMap.renumbered_empty).map
              fun names names' hnames => ⟨?_, hnames, h.spilled, rfl, h.frame⟩
            dsimp only
            rw [h.instrs]
            split
            · exact removeRedundantMoves_rename hnames p.instrs
            · rfl
          · have hspill := p.frame.spill_rename h.namer m p.instrs result.spilled.toList
            rw [h.frame, h.instrs]
            generalize p.frame.spill m p.instrs result.spilled.toList p.namer = s at hspill ⊢
            generalize p.frame.spill m (p.instrs.map (Instr.rename f)) (result.spilled.toList.map f)
              p'.namer = s' at hspill ⊢
            obtain ⟨s, frame, n⟩ := s
            obtain ⟨s', frame', n'⟩ := s'
            obtain ⟨hs, hframe, hn⟩ := hspill
            cases hs with
            | error e e' => exact .error _ _
            | ok hs =>
                cases hs
                refine ih ⟨rfl, hframe, hn, ?_, ?_⟩ (done + 1)
                · dsimp only [SpilledCode.rename]
                  rw [h.introduced, SortedSet.ofList_renumber, SortedSet.union_renumber]
                · rw [h.spilled, List.map_append]

theorem size_unallocated_rename (f : Renumbering) (m : Machine) (code : List Instr) :
    (unallocated m (code.map (Instr.rename f))).size = (unallocated m code).size := by
  have htemps : (code.map (Instr.rename f)).flatMap (fun i => i.defs ++ i.uses)
      = (code.flatMap fun i => i.defs ++ i.uses).map f := by
    simp [List.flatMap_map, List.map_flatMap]
  have hfilter : ((code.flatMap fun i => i.defs ++ i.uses).map f).filter (fun t => !m.isRegister t)
      = ((code.flatMap fun i => i.defs ++ i.uses).filter fun t => !m.isRegister t).map f := by
    rw [List.filter_map]
    congr 1
    exact List.filter_congr fun t _ => by simp
  unfold unallocated
  rw [htemps, hfilter, SortedSet.ofList_renumber, SortedSet.size_renumber]

end Allocation

/-- Renumbered code gets the same registers and slots. -/
theorem Frame.allocate_rename {f : Renumbering} {n n' : Namer} (hn : f.Follows n n') (frame : Frame)
    (m : Machine) (options : AllocOptions) (code : List Instr) :
    Alike (Allocation.Renumbered f) (frame.allocate m options code n).1
      (frame.allocate m options (code.map (Instr.rename f)) n').1 := by
  have hstart : Allocation.Progress.Renumbered f { instrs := code, frame, namer := n }
      { instrs := code.map (Instr.rename f), frame, namer := n' } := ⟨rfl, rfl, hn, rfl, rfl⟩
  unfold Frame.allocate
  rw [Allocation.size_unallocated_rename]
  exact Allocation.allocateWithin_rename hstart _ _

end TreeCompiler
