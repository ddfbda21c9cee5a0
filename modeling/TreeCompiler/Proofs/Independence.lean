import Mathlib.Data.List.Forall2
import TreeCompiler.Output.Basic
import TreeCompiler.Proofs.Namers
import TreeCompiler.Proofs.Renumbering.Rounds

/-!
# Independence — procedures of a file do not get in each other's way

The procedures of a file share a namer, so what the ones before a procedure use up decides the
numbers of its temps, but nothing else: alone or in a file, with one machine and one set of options,
it fails both times or gets the same instructions, registers, slots and frame
(`Procedure.compileFile_independent`).  Names are given to all temps of finished code, so the number
of a temp does not show in the assembly either.
-/

namespace TreeCompiler

/-! ## Written instructions -/

section Written

variable {f : Renumbering} {names names' : NameMap} {a a' : Allocation}

theorem Instr.operandText_rename {ts : List Temp}
    (h : ∀ t ∈ ts, names'.lookup (f t) = names.lookup t) (k : Nat) :
    operandText names' (ts.map f) k = operandText names ts k := by
  unfold operandText
  rw [List.getElem?_map]
  cases ht : ts[k]? with
  | none => rfl
  | some t => exact h t (List.mem_of_getElem? ht)

/-- An instruction is written by the names of its operands. -/
theorem Instr.fill_rename {i : Instr}
    (h : ∀ t ∈ i.defs ++ i.uses, names'.lookup (f t) = names.lookup t) :
    (i.rename f).fill names' = i.fill names := by
  have hpiece : (i.rename f).pieceText names' = i.pieceText names := by
    funext piece
    cases piece with
    | text cs => rfl
    | hole operand =>
        cases operand with
        | use k =>
            rw [pieceText, pieceText, uses_rename]
            exact operandText_rename (fun t ht => h t (List.mem_append_right _ ht)) k
        | definition k =>
            rw [pieceText, pieceText, defs_rename]
            exact operandText_rename (fun t ht => h t (List.mem_append_left _ ht)) k
        | target k => rw [pieceText, pieceText, targets_rename]
  cases i with
  | label => rfl
  | move | oper => exact congrArg (fun g => String.join (List.map g _)) hpiece

/-- Every temp of the instructions has a name. -/
def Allocation.Named (a : Allocation) : Prop :=
  ∀ i ∈ a.instrs, ∀ t ∈ i.defs ++ i.uses, ∃ name, a.coloring.get? t = some name

theorem Output.assemblyLine_rename (h : a.Renumbered f a') (hnamed : a.Named) {i : Instr}
    (hi : i ∈ a.instrs) :
    assemblyLine a'.coloring (i.rename f) = assemblyLine a.coloring i := by
  have hfill : (i.rename f).fill a'.coloring = i.fill a.coloring := by
    refine Instr.fill_rename fun t ht => ?_
    obtain ⟨name, hname⟩ := hnamed i hi t ht
    rw [TempMap.lookup, TempMap.lookup, h.coloring t, hname]
    rfl
  unfold assemblyLine
  dsimp only
  rw [hfill]
  cases i <;> rfl

/-- Renumbered code is written alike. -/
theorem Output.assemblyOf_rename (h : a.Renumbered f a') (hnamed : a.Named) :
    assemblyOf a' = assemblyOf a := by
  have hlines : a'.instrs.map (assemblyLine a'.coloring) =
      a.instrs.map (assemblyLine a.coloring) := by
    rw [h.instrs, List.map_map]
    exact List.map_congr_left fun i hi => assemblyLine_rename h hnamed hi
  unfold assemblyOf
  rw [h.frame, hlines]

end Written

namespace Allocation

variable {m : Machine} {options : AllocOptions}

/-- The last round gives a name to every temp of the code. -/
theorem named_of_allocateWithin {done left : Nat} {p : Progress} {a : Allocation}
    (h : (allocateWithin m options done left p).1 = .ok a) : a.Named := by
  induction left generalizing done p with
  | zero => cases h
  | succ left ih =>
      have hturn := turn m options done left p
      generalize allocateWithin m options done (left + 1) p = outcome at hturn h
      cases hturn with
      | uncolored | stop => cases h
      | @last g r hcolor _ =>
          obtain ⟨names, hnames, rfl⟩ := map_eq_ok_iff.1 h
          obtain ⟨hportrays, hproper⟩ := colorCode_spec hcolor
          intro i hi t ht
          have hi : i ∈ p.instrs := by
            dsimp only at hi
            split at hi
            · exact List.mem_of_mem_filter hi
            · exact hi
          obtain ⟨_, name, _, _, hname, _⟩ :=
            exists_lookup hproper hnames ((hportrays.node t).2 (.inr ⟨i, hi, ht⟩))
          exact ⟨name, hname⟩
      | next => exact ih h

end Allocation

/-! ## One procedure -/

namespace Procedure

variable {m : Machine} {options : AllocOptions} {f : Renumbering} {n n' : Namer} {p : Procedure}
  {ps : List Procedure}

theorem freshFor_rename (hn : f.Follows n n') (rs : List Temp) :
    (n'.freshFor rs).1 = (n.freshFor rs).1.map (fun e => (e.1, f e.2)) ∧
      f.Follows (n.freshFor rs).2 (n'.freshFor rs).2 := by
  induction rs generalizing n n' with
  | nil => exact ⟨rfl, hn⟩
  | cons r rs ih =>
      obtain ⟨hpairs, hn'⟩ := ih hn.next
      refine ⟨?_, hn'⟩
      rw [Namer.freshFor, Namer.freshFor, List.map_cons, ← hpairs, ← hn.fresh]

/-- A body whose temps keep their numbers is saved around by corresponding copies. -/
theorem saveCalleeSaves_rename (hn : f.Follows n n') (m : Machine) {body : List Stm}
    (hbody : body.map (Stm.rename f) = body) :
    (saveCalleeSaves m body n').1 = (saveCalleeSaves m body n).1.map (Stm.rename f) ∧
      f.Follows (saveCalleeSaves m body n).2 (saveCalleeSaves m body n').2 := by
  obtain ⟨hpairs, hn'⟩ := freshFor_rename hn (m.roles.calleeSaves.filter fun r => !m.isReserved r)
  have hfixed : ∀ e ∈ (n.freshFor (m.roles.calleeSaves.filter fun r => !m.isReserved r)).1,
      f e.1 = e.1 := by
    intro e he
    have hmem := List.mem_map_of_mem (f := Prod.fst) he
    rw [(n.freshFor_spec _).1] at hmem
    exact f.eq_self_of_role (m := m) (by simp [Roles.all, List.mem_of_mem_filter hmem])
  refine ⟨?_, hn'⟩
  unfold saveCalleeSaves
  dsimp only
  rw [hpairs, List.map_append, List.map_append, hbody, List.map_map, List.map_map, List.map_map,
    List.map_map]
  congr 1
  · congr 1
    exact List.map_congr_left fun e he => by simp [Stm.rename, Exp.rename, hfixed e he]
  · exact List.map_congr_left fun e he => by simp [Stm.rename, Exp.rename, hfixed e he]

/-- A procedure whose temps keep their numbers compiles to corresponding code. -/
theorem compile_rename (hn : f.Follows n n') (htemps : ∀ t ∈ p.temps, f t = t) (m : Machine)
    (options : AllocOptions) :
    Alike (Allocation.Renumbered f) (p.compile m options n).1.outcome
      (p.compile m options n').1.outcome := by
  -- saves, selection and allocation, each with the namer that the one before has left
  obtain ⟨hbody, hn₁⟩ := saveCalleeSaves_rename hn m (Stm.map_rename_eq_self htemps)
  obtain ⟨hselect, hn₂⟩ := (p.frame m).select_rename hn₁ m (saveCalleeSaves m p.body n).1
  rw [← hbody] at hselect hn₂
  change Alike _ (p.select m n).1 (p.select m n').1 at hselect
  change f.Follows (p.select m n).2 (p.select m n').2 at hn₂
  unfold compile
  generalize p.select m n = s at hselect hn₂ ⊢
  generalize p.select m n' = s' at hselect hn₂ ⊢
  obtain ⟨s, n₂⟩ := s
  obtain ⟨s', n₂'⟩ := s'
  cases hselect with
  | error e e' => exact .error _ _
  | @ok s s' h =>
      have hallocate := s.frame.allocate_rename hn₂ m options s.instrs
      dsimp only at hallocate h ⊢
      rw [h.1, h.2]
      generalize s.frame.allocate m options s.instrs n₂ = r at hallocate ⊢
      generalize s.frame.allocate m options (s.instrs.map (Instr.rename f)) n₂' = r' at hallocate ⊢
      obtain ⟨r, _⟩ := r
      obtain ⟨r', _⟩ := r'
      cases hallocate with
      | error e e' => exact .error _ _
      | ok h => exact .ok h

/-- Temps handed out from a later number on change nothing. -/
theorem exists_compile_rename (hfirst : Temp.firstVirtual ≤ n.nextTemp)
    (htemps : ∀ t ∈ p.temps, t.id < n.nextTemp) (hle : n.nextTemp ≤ n'.nextTemp) (m : Machine)
    (options : AllocOptions) :
    ∃ f : Renumbering, Alike (Allocation.Renumbered f) (p.compile m options n).1.outcome
      (p.compile m options n').1.outcome :=
  ⟨_, compile_rename (Renumbering.follows_shift hfirst (Nat.add_sub_of_le hle).symm)
    (fun t ht => if_pos (htemps t ht)) m options⟩

theorem named_of_compile {a : Allocation} (h : (p.compile m options n).1.outcome = .ok a) :
    a.Named := by
  obtain ⟨s, n₁, n₂, -, hallocate, -⟩ := exists_of_compile h
  exact Allocation.named_of_allocateWithin (congrArg Prod.fst hallocate)

/-! ## Files -/

/-- The assembly of a file, if all its procedures compile. -/
def assembly? (ps : List Procedure) (m : Machine) (options : AllocOptions) : Option String :=
  (Attempt.allocations? (compileFile ps m options).1).map Output.assembly

/-- The namer of a procedure on its own is not behind the one of a file. -/
theorem nextTemp_namerFor_le (hp : p ∈ ps) :
    (namerFor [p]).nextTemp ≤ (namerFor ps).nextTemp := by
  have hfile : ({} : Namer).nextTemp ≤ (namerFor ps).nextTemp := Namer.le_nextTemp_resumeAfter _ _
  have halone : maxTempAll [p] = p.maxTemp := by
    unfold maxTempAll
    rw [List.foldl_cons, List.foldl_nil]
    cases p.maxTemp <;> rfl
  unfold namerFor at hfile ⊢
  rw [halone]
  cases hmax : p.maxTemp with
  | none => exact hfile
  | some t =>
      have ht : t.AtMost (maxTempAll ps) := .foldl (.inr ⟨p, hp, t, hmax, Nat.le_refl _⟩)
      exact Nat.max_le.2 ⟨hfile, Namer.lt_nextTemp_of_atMost ht⟩

/-- What an attempt at a procedure has in common with an attempt at the procedure alone. -/
def AsAlone (m : Machine) (options : AllocOptions) (p : Procedure) (a : Attempt) : Prop :=
  ∃ alone f, (compileFile [p] m options).1 = [alone] ∧
    Alike (Allocation.Renumbered f) alone.outcome a.outcome

theorem asAlone_compile (hle : (namerFor [p]).nextTemp ≤ n.nextTemp) :
    AsAlone m options p (p.compile m options n).1 := by
  have hfirst : Temp.firstVirtual ≤ (namerFor [p]).nextTemp := Namer.le_nextTemp_resumeAfter {} _
  have htemps : ∀ t ∈ p.temps, t.id < (namerFor [p]).nextTemp := fun t ht =>
    Namer.lt_nextTemp_of_atMost (le_maxTempAll (List.mem_singleton_self p) ht)
  obtain ⟨f, h⟩ := exists_compile_rename hfirst htemps hle m options
  exact ⟨_, f, rfl, h⟩

theorem forall₂_compileAll (h : ∀ p ∈ ps, (namerFor [p]).nextTemp ≤ n.nextTemp) :
    List.Forall₂ (AsAlone m options) ps (compileAll m options ps n).1 := by
  induction ps generalizing n with
  | nil => exact .nil
  | cons p ps ih =>
      have hrest := (List.forall_mem_cons.1 h).2
      exact .cons (asAlone_compile (h p List.mem_cons_self))
        (ih fun q hq => Nat.le_trans (hrest q hq) (p.le_compile n))

/-- The procedure alone is written as the attempt is. -/
theorem AsAlone.assembly?_singleton {a : Attempt} (h : AsAlone m options p a) :
    assembly? [p] m options = a.outcome.toOption.map Output.assemblyOf := by
  obtain ⟨alone, f, hcompile, hoption⟩ := h
  have halone : (p.compile m options (namerFor [p])).1 = alone := (List.cons.inj hcompile).1
  unfold assembly?
  rw [hcompile, Attempt.allocations?, List.mapM_cons, List.mapM_nil]
  obtain ⟨name, selected?, outcome⟩ := a
  dsimp only at hoption ⊢
  generalize hout : alone.outcome = out at hoption ⊢
  cases hoption with
  | error e e' => rfl
  | ok h =>
      rw [← halone] at hout
      change some (Output.assembly [_]) = some (Output.assemblyOf _)
      rw [Output.assemblyOf_rename h (named_of_compile hout), Output.assembly, List.map_singleton,
        String.join_cons, String.join_nil, String.append_empty]

/-- The texts of the procedures alone are those of the attempts. -/
theorem mapM_assembly? {as : List Attempt} (h : List.Forall₂ (AsAlone m options) ps as) :
    (ps.mapM fun p => assembly? [p] m options) =
      (Attempt.allocations? as).map (List.map Output.assemblyOf) := by
  induction h with
  | nil => rfl
  | @cons p a ps as hp _ ih =>
      unfold Attempt.allocations? at ih ⊢
      rw [List.mapM_cons, List.mapM_cons, ih, hp.assembly?_singleton]
      generalize (as.mapM fun a => a.outcome.toOption) = as?
      cases a.outcome.toOption <;> cases as? <;> rfl

theorem isSome_mapM {α β : Type} {f : α → Option β} {l : List α} :
    (l.mapM f).isSome = true ↔ ∀ x ∈ l, (f x).isSome = true := by
  induction l with
  | nil => simp
  | cons x l ih =>
      rw [List.mapM_cons, List.forall_mem_cons, ← ih]
      cases f x <;> cases l.mapM f <;> simp

/-- A file compiles if and only if each of its procedures does on its own, to the assembly of the
procedures one after the other.  Each procedure gets the instructions, registers, slots and frame
that it gets on its own. -/
theorem compileFile_independent (ps : List Procedure) (m : Machine) (options : AllocOptions) :
    ((assembly? ps m options).isSome = true ↔
        ∀ p ∈ ps, (assembly? [p] m options).isSome = true) ∧
      assembly? ps m options = (ps.mapM fun p => assembly? [p] m options).map String.join ∧
      List.Forall₂ (AsAlone m options) ps (compileFile ps m options).1 := by
  have hall : List.Forall₂ (AsAlone m options) ps (compileFile ps m options).1 :=
    forall₂_compileAll fun p hp => nextTemp_namerFor_le hp
  have htext : assembly? ps m options =
      (ps.mapM fun p => assembly? [p] m options).map String.join := by
    rw [mapM_assembly? hall, Option.map_map]
    rfl
  refine ⟨?_, htext, hall⟩
  rw [htext, Option.isSome_map, isSome_mapM]

end Procedure

end TreeCompiler
